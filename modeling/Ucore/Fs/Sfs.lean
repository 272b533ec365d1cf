/-
  `kern/fs/sfs/sfs.h`, `sfs_io.c`, `sfs_inode.c`: a mounted sfs and its files.

  `SFS_BLKSIZE` is 4096, `SFS_NDIRECT` 12, `SFS_BLK_NENTRY` 1024, `SFS_BLKBITS` 32768.  Inodes in
  memory are given by their inode numbers.  A function returns a value or an error code, and `none`
  is a failed assertion or a `panic`.  `Device` says which requests to the device (or to `kmalloc`)
  fail; `disk0_io` checks a request before it transfers anything, so a failed one transfers nothing.
  A call runs with the locks it takes, so it is one step.

  `alloc_inode`, the lists and the locks are in `InodeCache`; `struct sfs_fs` has no further field
  that is read here.
-/
import Ucore.Fs.Bitmap
import Ucore.Lib.Bytes
import Mathlib.Data.Fin.VecNotation

namespace Ucore

def sfsMaxFileSize : ℕ := 1024 * 1024 * 128

def sfsBlknRoot : ℕ := 1

def sfsBlknFreemap : ℕ := 2

def sfsTypeFile : ℕ := 1

def sfsTypeDir : ℕ := 2

/-! ## Structures -/

/-- `struct sfs_disk_inode`. -/
@[ext] structure DiskInode where
  size : ℕ
  type : ℕ
  nlinks : ℕ
  blocks : ℕ
  direct : Fin 12 → ℕ
  indirect : ℕ

namespace DiskInode

/-- The 64 bytes of the structure. -/
def bytes (din : DiskInode) : Bytes :=
  Bytes.fields ([(4, din.size), (2, din.type), (2, din.nlinks), (4, din.blocks)] ++
    (List.ofFn din.direct).map (fun ino => (4, ino)) ++ [(4, din.indirect)])

def ofBytes (m : Bytes) : DiskInode where
  size := m.word 4 0
  type := m.word 2 4
  nlinks := m.word 2 6
  blocks := m.word 4 8
  direct k := m.word 4 (12 + 4 * k)
  indirect := m.word 4 60

end DiskInode

/-- `struct sfs_inode`, with the reference count of its `struct inode`. -/
structure SfsInode where
  din : DiskInode
  dirty : Bool
  reclaimCount : ℤ
  refCount : ℤ

/-- `struct sfs_fs`; `blocks` and `unusedBlocks` are those of `super`.  `cached ino` says that the
    inode is in memory, and `time` counts the requests. -/
structure Sfs where
  blocks : ℕ
  unusedBlocks : ℕ
  superDirty : Bool
  freemap : Bitmap
  disk : ℕ → Bytes
  sin : ℕ → SfsInode
  cached : ℕ → Bool
  time : ℕ

/-- A request: to `kmalloc`, a read or a write of a block, the write of `sfs_clear_block`. -/
inductive Request where
  | kmalloc
  | read
  | write
  | clear
  deriving DecidableEq

/-- The error code of the request made at a time, if it fails. -/
structure Device where
  fault : ℕ → Request → Option Errno

namespace Sfs

def wait (s : Sfs) (n : ℕ) : Sfs := { s with time := s.time + n }

def setBlock (s : Sfs) (blkno : ℕ) (m : Bytes) : Sfs :=
  { s with disk := Function.update s.disk blkno ((s.disk blkno).copy 0 m 4096) }

def setSin (s : Sfs) (ino : ℕ) (f : SfsInode → SfsInode) : Sfs :=
  { s with sin := Function.update s.sin ino (f (s.sin ino)) }

/-- Writes to the disk inode in memory, and sets `dirty`. -/
def setDin (s : Sfs) (ino : ℕ) (f : DiskInode → DiskInode) : Sfs :=
  s.setSin ino fun sin => { sin with din := f sin.din, dirty := true }

def din (s : Sfs) (ino : ℕ) : DiskInode := (s.sin ino).din

end Sfs

abbrev K (α : Type) : Type := Code Sfs Errno α

/-! ## `sfs_io.c` -/

section
variable (dev : Device)

def request (req : Request) : K Unit := do
  let s ← Code.get
  Code.modify fun s => s.wait 1
  match dev.fault s.time req with
  | none => pure ()
  | some e => Code.throw e

/-- The assertion of `sfs_rwblock_nolock`, for `check`. -/
def checkBlkno (blkno : ℕ) : K Unit := do
  let s ← Code.get
  Code.assert (blkno ≠ 0 ∧ blkno < s.blocks)

/-- `sfs_rwblock_nolock`, to read. -/
def readBlock (blkno : ℕ) : K Bytes := do
  checkBlkno blkno
  request dev .read
  let s ← Code.get
  pure (s.disk blkno)

/-- `sfs_rwblock_nolock`, to write. -/
def writeBlock (req : Request) (buf : Bytes) (blkno : ℕ) : K Unit := do
  checkBlkno blkno
  request dev req
  Code.modify fun s => s.setBlock blkno buf

/-- `sfs_rblock` of one block. -/
def rblock (blkno : ℕ) : K Bytes := readBlock dev blkno

/-- `sfs_wblock` of one block. -/
def wblock (buf : Bytes) (blkno : ℕ) : K Unit := writeBlock dev .write buf blkno

/-- `sfs_rbuf`: what is copied to the buffer are the first `len` bytes returned. -/
def rbuf (len blkno offset : ℕ) : K Bytes := do
  Code.assert (offset < 4096 ∧ offset + len ≤ 4096)
  let m ← readBlock dev blkno
  pure (m.from' offset)

def wbuf (buf : Bytes) (len blkno offset : ℕ) : K Unit := do
  Code.assert (offset < 4096 ∧ offset + len ≤ 4096)
  let m ← readBlock dev blkno
  writeBlock dev .write (m.copy offset buf len) blkno

/-- `sfs_clear_block` of one block. -/
def clearBlock (blkno : ℕ) : K Unit := writeBlock dev .clear (fun _ => 0) blkno

/-! ## Blocks -/

/-- A function on `sfs->freemap`. -/
def onFreemap {α : Type} (x : Code Bitmap Errno α) : K α :=
  Code.on Sfs.freemap (fun s bm => { s with freemap := bm }) x

/-- `assert(sfs_block_inuse(ino))`. -/
def assertInuse (ino : ℕ) : K Unit := do
  let s ← Code.get
  Code.assert (ino ≠ 0 ∧ ino < s.blocks)
  let free ← onFreemap (bitmapTest ino)
  Code.assert (free = false)

def blockAlloc : K ℕ := do
  let ino ← onFreemap bitmapAlloc
  let s ← Code.get
  Code.assert (0 < s.unusedBlocks)
  Code.modify fun s => { s with unusedBlocks := s.unusedBlocks - 1, superDirty := true }
  assertInuse ino
  clearBlock dev ino
  pure ino

def blockFree (ino : ℕ) : K Unit := do
  assertInuse ino
  onFreemap (bitmapFree ino)
  Code.modify fun s => { s with unusedBlocks := s.unusedBlocks + 1, superDirty := true }

/-! ## The block map -/

/-- `failed_cleanup` of `sfs_bmap_get_sub_nolock`. -/
def failedCleanup (entp ent : ℕ) (ret : Errno) : K (ℕ × ℕ) :=
  if ent ≠ entp then do
    blockFree ent
    Code.throw ret
  else Code.throw ret

/-- `sfs_bmap_get_sub_nolock` from where it has the entry block `ent` and allocates the block. -/
def bmapAddEntry (entp ent index : ℕ) : K (ℕ × ℕ) := do
  match ← Code.attempt (blockAlloc dev) with
  | .error ret => failedCleanup entp ent ret
  | .ok ino =>
    match ← Code.attempt (wbuf dev (Bytes.ofWord ino) 4 ent (index * 4)) with
    | .error ret => do
      blockFree ino
      failedCleanup entp ent ret
    | .ok () => pure (ent, ino)

/-- `sfs_bmap_get_sub_nolock`; returns `*entp` and `*ino_store`. -/
def bmapGetSub (entp index : ℕ) (create : Bool) : K (ℕ × ℕ) := do
  Code.assert (index < 1024)
  if entp ≠ 0 then do
    let m ← rbuf dev 4 entp (index * 4)
    if m.word 4 0 ≠ 0 ∨ create = false then pure (entp, m.word 4 0)
    else bmapAddEntry dev entp entp index
  else if create = false then pure (0, 0)
  else do
    let ent ← blockAlloc dev
    bmapAddEntry dev entp ent index

/-- `out` of `sfs_bmap_get_nolock`. -/
def bmapGetOut (ino : ℕ) : K ℕ :=
  if ino = 0 then pure ino
  else do
    assertInuse ino
    pure ino

/-- `sfs_bmap_get_nolock`, `index` being that of a direct block. -/
def bmapGetDirect (ino : ℕ) (index : Fin 12) (create : Bool) : K ℕ := do
  let s ← Code.get
  if (s.din ino).direct index = 0 ∧ create = true then do
    let b ← blockAlloc dev
    Code.modify fun s => s.setDin ino fun din =>
      { din with direct := Function.update din.direct index b }
    bmapGetOut b
  else bmapGetOut ((s.din ino).direct index)

/-- `sfs_bmap_get_nolock`, `index` being that in the indirect block. -/
def bmapGetIndirect (ino index : ℕ) (create : Bool) : K ℕ := do
  let s ← Code.get
  let (ent, b) ← bmapGetSub dev (s.din ino).indirect index create
  if ent ≠ (s.din ino).indirect then do
    Code.assert ((s.din ino).indirect = 0)
    Code.modify fun s => s.setDin ino fun din => { din with indirect := ent }
    bmapGetOut b
  else bmapGetOut b

def bmapGet (ino index : ℕ) (create : Bool) : K ℕ :=
  if h : index < 12 then bmapGetDirect dev ino ⟨index, h⟩ create
  else if index - 12 < 1024 then bmapGetIndirect dev ino (index - 12) create
  else Code.panic

def bmapFreeSub (ent index : ℕ) : K Unit := do
  assertInuse ent
  Code.assert (index < 1024)
  let m ← rbuf dev 4 ent (index * 4)
  if m.word 4 0 ≠ 0 then do
    wbuf dev (fun _ => 0) 4 ent (index * 4)
    blockFree (m.word 4 0)
  else pure ()

def bmapFree (ino index : ℕ) : K Unit := do
  let s ← Code.get
  if h : index < 12 then
    if (s.din ino).direct ⟨index, h⟩ ≠ 0 then do
      blockFree ((s.din ino).direct ⟨index, h⟩)
      Code.modify fun s => s.setDin ino fun din =>
        { din with direct := Function.update din.direct ⟨index, h⟩ 0 }
    else pure ()
  else if index - 12 < 1024 ∧ (s.din ino).indirect ≠ 0 then
    bmapFreeSub dev (s.din ino).indirect (index - 12)
  else pure ()

def bmapLoad (ino index : ℕ) : K ℕ := do
  let s ← Code.get
  Code.assert (index ≤ (s.din ino).blocks)
  let b ← bmapGet dev ino index (index = (s.din ino).blocks)
  assertInuse b
  if index = (s.din ino).blocks then do
    Code.modify fun s => s.setSin ino fun sin =>
      { sin with din := { sin.din with blocks := sin.din.blocks + 1 } }
    pure b
  else pure b

def bmapTruncate (ino : ℕ) : K Unit := do
  let s ← Code.get
  Code.assert ((s.din ino).blocks ≠ 0)
  bmapFree dev ino ((s.din ino).blocks - 1)
  Code.modify fun s => s.setDin ino fun din => { din with blocks := din.blocks - 1 }

/-! ## Reading and writing files -/

/-- A piece of a transfer: `size` bytes from `blkoff` on in the file's block `blkno`.  A `whole`
    block is moved by `sfs_rblock` and `sfs_wblock`. -/
structure Piece where
  blkno : ℕ
  blkoff : ℕ
  size : ℕ
  whole : Bool

/-- Step 2 and step 3 of `sfs_io_nolock`: `nblks` blocks from `blkno` on, and `size` bytes of the
    one behind them. -/
def tailPieces (blkno nblks size : ℕ) : List Piece :=
  (List.range nblks).map (fun k => ⟨blkno + k, 0, 4096, true⟩) ++
    if size ≠ 0 then [⟨blkno + nblks, 0, size, false⟩] else []

/-- The pieces `sfs_io_nolock` moves, in this order. -/
def ioPieces (offset endpos : ℕ) : List Piece :=
  let blkno := offset / 4096
  let nblks := endpos / 4096 - blkno
  let blkoff := offset % 4096
  if blkoff ≠ 0 then
    if nblks = 0 then [⟨blkno, blkoff, endpos - offset, false⟩]
    else ⟨blkno, blkoff, 4096 - blkoff, false⟩ :: tailPieces (blkno + 1) (nblks - 1) (endpos % 4096)
  else tailPieces blkno nblks (endpos % 4096)

/-- `sfs_buf_op` or `sfs_block_op` on block `b`; `alen` bytes have been moved before.  Returns the
    caller's buffer. -/
def movePiece (write : Bool) (p : Piece) (b : ℕ) (buf : Bytes) (alen : ℕ) : K Bytes :=
  match write, p.whole with
  | true, true => do
    wblock dev (buf.from' alen) b
    pure buf
  | true, false => do
    wbuf dev (buf.from' alen) p.size b p.blkoff
    pure buf
  | false, true => do
    let m ← rblock dev b
    pure (buf.copy alen m 4096)
  | false, false => do
    let m ← rbuf dev p.size b p.blkoff
    pure (buf.copy alen m p.size)

/-- What `sfs_io_nolock` returns: `ret`, `*alenp` and the caller's buffer. -/
structure IoResult where
  ret : Option Errno
  alen : ℕ
  buf : Bytes

/-- Moves pieces until one fails (`goto out`). -/
def ioLoop (ino : ℕ) (write : Bool) : List Piece → Bytes → ℕ → K IoResult
  | [], buf, alen => pure ⟨none, alen, buf⟩
  | p :: ps, buf, alen => do
    match ← Code.attempt (bmapLoad dev ino p.blkno) with
    | .error e => pure ⟨some e, alen, buf⟩
    | .ok b =>
      match ← Code.attempt (movePiece dev write p b buf alen) with
      | .error e => pure ⟨some e, alen, buf⟩
      | .ok buf => ioLoop ino write ps buf (alen + p.size)

/-- `sfs_io_nolock`.  `endpos` is a sum of 64-bit numbers that is read as a signed one. -/
def ioNolock (ino : ℕ) (buf : Bytes) (offset : ℤ) (alen : ℕ) (write : Bool) : K IoResult := do
  let s ← Code.get
  Code.assert ((s.din ino).type ≠ sfsTypeDir)
  let endpos := Int.bmod (offset + alen) (2 ^ 64)
  if offset < 0 ∨ sfsMaxFileSize ≤ offset ∨ endpos < offset then
    pure ⟨some .inval, 0, buf⟩
  else if offset = endpos then
    pure ⟨none, 0, buf⟩
  else
    let endpos := if sfsMaxFileSize < endpos then (sfsMaxFileSize : ℤ) else endpos
    if write = false then
      if ((s.din ino).size : ℤ) ≤ offset then pure ⟨none, 0, buf⟩
      else
        let endpos := if ((s.din ino).size : ℤ) < endpos then ((s.din ino).size : ℤ) else endpos
        ioLoop dev ino write (ioPieces offset.toNat endpos.toNat) buf 0
    else do
      let out ← ioLoop dev ino write (ioPieces offset.toNat endpos.toNat) buf 0
      let s ← Code.get
      if (s.din ino).size < offset.toNat + out.alen then do
        Code.modify fun s => s.setDin ino fun din => { din with size := offset.toNat + out.alen }
        pure out
      else pure out

/-! ## Inodes -/

def fsync (ino : ℕ) : K Unit := do
  let s ← Code.get
  if (s.sin ino).dirty = true then do
    Code.modify fun s => s.setSin ino fun sin => { sin with dirty := false }
    match ← Code.attempt (wbuf dev (s.din ino).bytes 64 ino 0) with
    | .ok () => pure ()
    | .error ret => do
      Code.modify fun s => s.setSin ino fun sin => { sin with dirty := true }
      Code.throw ret
  else pure ()

/-- The loop of `sfs_truncfile` that makes the file longer: `n` more blocks. -/
def growLoop (ino : ℕ) : ℕ → ℕ → K Unit
  | _, 0 => pure ()
  | nblks, n + 1 => do
    let _ ← bmapLoad dev ino nblks
    growLoop ino (nblks + 1) n

/-- The loop of `sfs_truncfile` that makes it shorter: `n` blocks fewer. -/
def shrinkLoop (ino : ℕ) : ℕ → K Unit
  | 0 => pure ()
  | n + 1 => do
    bmapTruncate dev ino
    shrinkLoop ino n

/-- The loops of `sfs_truncfile`: from `nblks` blocks to `tblks`. -/
def resize (ino nblks tblks : ℕ) : K Unit :=
  if nblks < tblks then growLoop dev ino nblks (tblks - nblks)
  else shrinkLoop dev ino (nblks - tblks)

def truncfile (ino : ℕ) (len : ℤ) : K Unit :=
  if len < 0 ∨ sfsMaxFileSize < len then Code.throw .inval
  else do
    let s ← Code.get
    let tblks := (len.toNat + 4095) / 4096
    let nblks := (s.din ino).blocks
    if (s.din ino).size = len then
      Code.assert (tblks = nblks)
    else do
      resize dev ino nblks tblks
      let s ← Code.get
      Code.assert ((s.din ino).blocks = tblks)
      Code.modify fun s => s.setDin ino fun din => { din with size := len.toNat }

def tryseek (ino : ℕ) (pos : ℤ) : K Unit :=
  if pos < 0 ∨ sfsMaxFileSize ≤ pos then Code.throw .inval
  else do
    let s ← Code.get
    if ((s.din ino).size : ℤ) < pos then truncfile dev ino pos
    else pure ()

def kmalloc : K Unit := do
  match ← Code.attempt (request dev .kmalloc) with
  | .ok () => pure ()
  | .error _ => Code.throw .noMem

/-- `sfs_load_inode`; there are two calls of `kmalloc`, the second in `alloc_inode`. -/
def loadInode (ino : ℕ) : K Unit := do
  let s ← Code.get
  if s.cached ino = true then
    Code.modify fun s => s.setSin ino fun sin =>
      { sin with
        refCount := sin.refCount + 1
        reclaimCount := if sin.refCount + 1 = 1 then sin.reclaimCount + 1 else sin.reclaimCount }
  else do
    kmalloc dev
    assertInuse ino
    let m ← rbuf dev 64 ino 0
    Code.assert ((DiskInode.ofBytes m).nlinks ≠ 0)
    kmalloc dev
    Code.modify fun s =>
      { s with
        cached := Function.update s.cached ino true
        sin := Function.update s.sin ino ⟨DiskInode.ofBytes m, false, 1, 1⟩ }

/-- The end of `sfs_reclaim`, behind `sfs_remove_links`. -/
def reclaimFree (ino : ℕ) : K Unit := do
  let s ← Code.get
  Code.modify fun s => { s with cached := Function.update s.cached ino false }
  if (s.din ino).nlinks = 0 then do
    blockFree ino
    if (s.din ino).indirect ≠ 0 then blockFree (s.din ino).indirect
    else pure ()
  else pure ()

def reclaim (ino : ℕ) : K Unit := do
  let s ← Code.get
  Code.assert (0 < (s.sin ino).reclaimCount)
  Code.modify fun s => s.setSin ino fun sin => { sin with reclaimCount := sin.reclaimCount - 1 }
  if (s.sin ino).reclaimCount - 1 ≠ 0 ∨ (s.sin ino).refCount ≠ 0 then Code.throw .busy
  else do
    if (s.din ino).nlinks = 0 then truncfile dev ino 0
    else pure ()
    fsync dev ino
    reclaimFree ino

end

end Ucore
