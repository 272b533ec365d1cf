/-
  `kern/fs/sfs/sfs_fs.c`: `sfs_do_mount`, and `bitmap_create` of `bitmap.c`.

  A block of memory is given by what it is for; `heap` are the blocks that `kmalloc` has given and
  `kfree` has not got back.  An error passes the labels `failed_cleanup_…` from the inside to the
  outside (`cleanup`).  The device is `disk0`, the one that can be mounted; a request that
  `disk0_io` does not refuse for its range is refused if `faults` says so.
-/
import Ucore.Fs.Sfs

namespace Ucore

def sfsMagic : ℕ := 0x2f8dbe2a

def sfsBlknSuper : ℕ := 0

/-! ## Structures -/

/-- `struct sfs_super`. -/
@[ext] structure SfsSuper where
  magic : ℕ
  blocks : ℕ
  unusedBlocks : ℕ
  info : Fin 32 → UInt8

namespace SfsSuper

/-- The 44 bytes of the structure. -/
def bytes (super : SfsSuper) : Bytes :=
  Bytes.fields ([(4, super.magic), (4, super.blocks), (4, super.unusedBlocks)] ++
    (List.ofFn fun k => (super.info k).toNat).map fun c => (1, c))

def ofBytes (m : Bytes) : SfsSuper where
  magic := m.word 4 0
  blocks := m.word 4 4
  unusedBlocks := m.word 4 8
  info k := m (12 + k)

/-- `sfs_freemap_bits`: `ROUNDUP` is computed with 64 bits, and cut to 32. -/
def freemapBits (super : SfsSuper) : ℕ := (super.blocks + 32767) / 32768 * 32768 % 2 ^ 32

/-- `sfs_freemap_blocks`. -/
def freemapBlocks (super : SfsSuper) : ℕ := (super.blocks + 32767) / 32768

/-- `super->info[SFS_MAX_INFO_LEN] = '\0'`. -/
def endInfo (super : SfsSuper) : SfsSuper :=
  { super with info := Function.update super.info 31 0 }

end SfsSuper

/-- `struct device` of `disk0`, and what is on it. -/
structure BlockDev where
  blocks : ℕ
  blocksize : ℕ
  data : ℕ → Bytes
  faults : Device

inductive Chunk where
  | fs
  | sfsBuffer
  | hashList
  | bitmap
  | map
  deriving DecidableEq

structure MountState where
  time : ℕ
  heap : List Chunk

abbrev MountCode (α : Type) : Type := Code MountState Errno α

/-! ## Memory and blocks -/

section
variable (d : BlockDev)

/-- A request that is made at the present time; `none` if it does not fail. -/
def makeRequest (req : Request) : MountCode (Option Errno) := do
  let s ← Code.get
  Code.modify fun s => { s with time := s.time + 1 }
  pure (d.faults.fault s.time req)

def kmallocFor (c : Chunk) : MountCode Unit := do
  match ← makeRequest d .kmalloc with
  | none => Code.modify fun s => { s with heap := c :: s.heap }
  | some _ => Code.throw .noMem

def kfree (c : Chunk) : MountCode Unit := Code.modify fun s => { s with heap := s.heap.erase c }

/-- A label that releases `c`. -/
def cleanup {α : Type} (c : Chunk) (x : MountCode α) : MountCode α := do
  match ← Code.attempt x with
  | .ok a => pure a
  | .error ret => do
    kfree c
    Code.throw ret

/-- `sfs_init_read`; the offset in bytes is a 32-bit number. -/
def initRead (blkno : ℕ) : MountCode Bytes :=
  let blkno := blkno * 4096 % 2 ^ 32 / 4096
  if d.blocks < blkno + 1 then Code.throw .inval
  else do
    match ← makeRequest d .read with
    | none => pure (d.data blkno)
    | some e => Code.throw e

/-! ## The free map -/

/-- The last word of a new bitmap, in which bits from `overbits` on are in use. -/
def lastWord (overbits : ℕ) : BitVec 32 :=
  (List.range' overbits (32 - overbits)).foldl (fun word offset => word ^^^ bitMask offset)
    (BitVec.allOnes 32)

def bitmapCreate (nbits : ℕ) : MountCode Bitmap := do
  Code.assert (nbits ≠ 0 ∧ nbits < nbits + 32)
  kmallocFor d .bitmap
  let nwords := (nbits + 31) / 32
  cleanup .bitmap (kmallocFor d .map)
  if nbits = nwords * 32 then
    pure ⟨nbits, nwords, fun ix => if ix < nwords then BitVec.allOnes 32 else 0⟩
  else do
    Code.assert (nbits / 32 = nwords - 1)
    Code.assert (0 < nbits - (nwords - 1) * 32 ∧ nbits - (nwords - 1) * 32 < 32)
    pure ⟨nbits, nwords, fun ix =>
      if ix = nwords - 1 then lastWord (nbits - (nwords - 1) * 32)
      else if ix < nwords then BitVec.allOnes 32 else 0⟩

/-- The `k`-th block of the words is read. -/
def Bitmap.load (bm : Bitmap) (k : ℕ) (m : Bytes) : Bitmap :=
  { bm with map := fun ix =>
      if ix / 1024 = k then BitVec.ofNat 32 (m.word 4 (4 * (ix % 1024))) else bm.map ix }

/-- The loop of `sfs_init_freemap`; `k` blocks have been read. -/
def initFreemapLoop : ℕ → ℕ → ℕ → Bitmap → MountCode Bitmap
  | 0, _, _, freemap => pure freemap
  | nblks + 1, blkno, k, freemap => do
    let m ← initRead d blkno
    initFreemapLoop nblks (blkno + 1) (k + 1) (freemap.load k m)

def initFreemap (freemap : Bitmap) (blkno nblks : ℕ) : MountCode Bitmap := do
  Code.assert (4 * freemap.nwords = nblks * 4096 % 2 ^ 32)
  initFreemapLoop d nblks blkno 0 freemap

/-- A function that reads a bitmap. -/
def readBitmap {α : Type} (freemap : Bitmap) (x : Code Bitmap Errno α) : MountCode α := fun s =>
  (x freemap).map fun (r, _) => (r, s)

/-- The loop that counts the free blocks. -/
def countUnused (freemap : Bitmap) : List ℕ → ℕ → MountCode ℕ
  | [], unused => pure unused
  | i :: is, unused => do
    let free ← readBitmap freemap (bitmapTest i)
    countUnused freemap is (if free then unused + 1 else unused)

def bitmapDestroy : MountCode Unit := do
  kfree .map
  kfree .bitmap

/-- `failed_cleanup_freemap`. -/
def cleanupFreemap {α : Type} (x : MountCode α) : MountCode α := do
  match ← Code.attempt x with
  | .ok a => pure a
  | .error ret => do
    bitmapDestroy
    Code.throw ret

/-! ## Mounting -/

/-- `struct sfs_fs` as it is filled in, with no inode in memory. -/
def mountedSfs (super : SfsSuper) (freemap : Bitmap) (data : ℕ → Bytes) (time : ℕ) : Sfs where
  blocks := super.blocks
  unusedBlocks := super.unusedBlocks
  superDirty := false
  freemap := freemap
  disk := data
  sin _ := ⟨⟨0, 0, 0, 0, fun _ => 0, 0⟩, false, 0, 0⟩
  cached _ := false
  time := time

/-- `sfs_do_mount` behind `bitmap_create`. -/
def mountFreemap (super : SfsSuper) (freemap : Bitmap) : MountCode (SfsSuper × Sfs) := do
  let freemap ← cleanupFreemap (initFreemap d freemap sfsBlknFreemap super.freemapBlocks)
  let unused ← countUnused freemap (List.range super.freemapBits) 0
  Code.assert (unused = super.unusedBlocks)
  let s ← Code.get
  pure (super, mountedSfs super freemap d.data s.time)

/-- `sfs_do_mount` behind the read of the superblock. -/
def mountSuper (super : SfsSuper) : MountCode (SfsSuper × Sfs) :=
  if super.magic ≠ sfsMagic then Code.throw .inval
  else if d.blocks < super.blocks then Code.throw .inval
  else do
    kmallocFor d .hashList
    cleanup .hashList do
      let freemap ← bitmapCreate d super.freemapBits
      mountFreemap d super.endInfo freemap

/-- `sfs_do_mount`; returns `sfs->super` and the file system. -/
def doMount : MountCode (SfsSuper × Sfs) :=
  if d.blocksize ≠ 4096 then Code.throw .naDev
  else do
    kmallocFor d .fs
    cleanup .fs do
      kmallocFor d .sfsBuffer
      cleanup .sfsBuffer do
        let m ← initRead d sfsBlknSuper
        mountSuper d (SfsSuper.ofBytes m)

end

end Ucore
