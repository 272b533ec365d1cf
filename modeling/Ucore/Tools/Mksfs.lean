/-
  `tools/mksfs.c`: the program that makes an image.

  `none` is `bug(…)` or a failed assertion: the program exits.  Blocks and inodes in memory are
  given by the number of the `malloc` that has made them; a hash table is a chain for each value of
  the hash.  `image` is the file that is written.
-/
import Ucore.Fs.Mount
import Ucore.Libs.Hash

namespace Ucore

namespace Mksfs

/-! ## Structures -/

/-- `struct cache_block`. -/
structure CacheBlock where
  ino : ℕ
  cache : Bytes

/-- `struct inode`, which goes to the disk. -/
structure Inode where
  size : ℕ
  type : ℕ
  nlinks : ℕ
  blocks : ℕ
  direct : Fin 12 → ℕ
  indirect : ℕ
  dbIndirect : ℕ

/-- The 68 bytes of the structure. -/
def Inode.bytes (inode : Inode) : Bytes :=
  Bytes.fields ([(4, inode.size), (2, inode.type), (2, inode.nlinks), (4, inode.blocks)] ++
    (List.ofFn inode.direct).map (fun ino => (4, ino)) ++
      [(4, inode.indirect), (4, inode.dbIndirect)])

/-- `struct cache_inode`; `l1` and `l2` point to blocks. -/
structure CacheInode where
  inode : Inode
  real : ℕ
  ino : ℕ
  nblks : ℕ
  l1 : Option ℕ
  l2 : Option ℕ

/-- `struct sfs_fs`, with what `malloc` has made, the `static` entry of `add_entry`, the file of the
    image, and the numbers that `sfs_alloc_ino` has returned. -/
structure State where
  super : SfsSuper
  ninos : ℕ
  nextIno : ℕ
  inodes : ℕ → List ℕ
  blocks : ℕ → List ℕ
  cacheInode : ℕ → CacheInode
  cacheBlock : ℕ → CacheBlock
  inodeCount : ℕ
  blockCount : ℕ
  entry : Bytes
  image : ℕ → Bytes
  allocated : List ℕ

/-! ## Blocks and inodes in memory -/

def allocIno (s : State) : Option (ℕ × State) :=
  if s.nextIno < s.ninos then
    some (s.nextIno,
      { s with
        super := { s.super with unusedBlocks := s.super.unusedBlocks - 1 }
        nextIno := s.nextIno + 1
        allocated := s.nextIno :: s.allocated })
  else none

/-- `(ino != 0) ? ino : sfs_alloc_ino(sfs)`. -/
def inoOrAlloc (s : State) (ino : ℕ) : Option (ℕ × State) :=
  if ino ≠ 0 then some (ino, s) else allocIno s

/-- `alloc_cache_block`; the chain is that of the argument. -/
def allocCacheBlock (s : State) (ino : ℕ) : Option (ℕ × State) :=
  (inoOrAlloc s ino).map fun (b, s) =>
    (s.blockCount,
      { s with
        cacheBlock := Function.update s.cacheBlock s.blockCount ⟨b, fun _ => 0⟩
        blockCount := s.blockCount + 1
        blocks :=
          Function.update s.blocks (hash32 ino 10) (s.blockCount :: s.blocks (hash32 ino 10)) })

def searchCacheBlock (s : State) (ino : ℕ) : Option ℕ :=
  (s.blocks (hash32 ino 10)).find? fun cb => (s.cacheBlock cb).ino = ino

/-- `alloc_cache_inode`; `hash64` hashes the lower half. -/
def allocCacheInode (s : State) (real ino type : ℕ) : Option (ℕ × State) :=
  (inoOrAlloc s ino).map fun (b, s) =>
    (s.inodeCount,
      { s with
        cacheInode := Function.update s.cacheInode s.inodeCount
          ⟨⟨0, type, 0, 0, fun _ => 0, 0, 0⟩, real, b, 0, none, none⟩
        inodeCount := s.inodeCount + 1
        inodes := Function.update s.inodes (hash32 (real % 2 ^ 32) 10)
          (s.inodeCount :: s.inodes (hash32 (real % 2 ^ 32) 10)) })

/-- `create_sfs`, for a file of `size` bytes; `junk` is what `malloc` leaves in `super.info` behind
    the string. -/
def createSfs (junk : Fin 32 → UInt8) (entry : Bytes) (image : ℕ → Bytes) (size : ℕ) :
    Option State :=
  let ninos := size / 4096 % 2 ^ 32
  let ninos := if 1024 * 512 < ninos then 1024 * 512 else ninos
  let nextIno := sfsBlknFreemap + (ninos + 32767) / 32768
  if ninos ≤ nextIno then none
  else
    let info := "simple file system".toUTF8.toList
    (allocCacheInode
      { super := ⟨sfsMagic, ninos, ninos - nextIno, fun k =>
          if h : k < info.length then info[k] else if k = info.length then 0 else junk k⟩
        ninos := ninos
        nextIno := nextIno
        inodes := fun _ => []
        blocks := fun _ => []
        cacheInode := fun _ => ⟨⟨0, 0, 0, 0, fun _ => 0, 0, 0⟩, 0, 0, 0, none, none⟩
        cacheBlock := fun _ => ⟨0, fun _ => 0⟩
        inodeCount := 0
        blockCount := 0
        entry := entry
        image := image
        allocated := [] } 0 sfsBlknRoot sfsTypeDir).map Prod.snd

/-! ## Writing blocks -/

/-- `write_block`; what is shorter than a block is filled up with zeros. -/
def writeBlock (s : State) (data : Bytes) (len ino : ℕ) : Option State :=
  if len ≤ 4096 ∧ ino < s.ninos then
    some { s with image := Function.update s.image ino (Bytes.copy (fun _ => 0) 0 data len) }
  else none

def flushCacheBlock (s : State) (cb : ℕ) : Option State :=
  writeBlock s (s.cacheBlock cb).cache 4096 (s.cacheBlock cb).ino

def flushCacheInode (s : State) (ci : ℕ) : Option State :=
  writeBlock s (s.cacheInode ci).inode.bytes 68 (s.cacheInode ci).ino

/-- `data[j / bits] |= (1 << (j % bits))`. -/
def setWordBit (data : ℕ → BitVec 32) (j : ℕ) : ℕ → BitVec 32 :=
  Function.update data (j / 32) (data (j / 32) ||| bitMask (j % 32))

/-- The words of the piece of the free map that begins with bit `i`. -/
def freemapPiece (ninos nextIno i : ℕ) : ℕ → BitVec 32 :=
  if nextIno < i + 32768 then
    let start := if i < nextIno then nextIno - i else 0
    let stop := if ninos < i + 32768 then ninos - i else 32768
    (List.range' start (stop - start)).foldl setWordBit fun _ => 0
  else fun _ => 0

/-- The loop of `close_sfs` over the pieces; returns the number behind that of the last block. -/
def closeFreemap (s : State) (i ino : ℕ) : Option (ℕ × State) :=
  if i < s.ninos then
    match h : writeBlock s (Bytes.ofWords (freemapPiece s.ninos s.nextIno i)) 4096 ino with
    | none => none
    | some t => closeFreemap t (i + 32768) (ino + 1)
  else some (ino, s)
termination_by s.ninos - i
decreasing_by
  have ht : t.ninos = s.ninos := by
    unfold writeBlock at h
    split at h
    · cases h
      rfl
    · cases h
  omega

def flushCacheBlocks : List ℕ → State → Option State
  | [], s => some s
  | cb :: cbs, s => (flushCacheBlock s cb).bind (flushCacheBlocks cbs)

def flushCacheInodes : List ℕ → State → Option State
  | [], s => some s
  | ci :: cis, s => (flushCacheInode s ci).bind (flushCacheInodes cis)

/-- The loop of `close_sfs` over the values of the hash. -/
def flushChains : List ℕ → State → Option State
  | [], s => some s
  | i :: is, s => ((flushCacheBlocks (s.blocks i) s).bind fun s =>
      flushCacheInodes (s.inodes i) s).bind (flushChains is)

/-- `close_sfs`; returns the number behind the last block of the free map as well. -/
def closeSfs (s : State) : Option (ℕ × State) :=
  (closeFreemap s 0 sfsBlknFreemap).bind fun (ino, s) =>
    (writeBlock s s.super.bytes 44 sfsBlknSuper).bind fun s =>
      (flushChains (List.range 1024) s).map fun s => (ino, s)

/-! ## Files -/

/-- `update_cache`; returns `*cbp` and `*inop`. -/
def updateCache (s : State) (cb : Option ℕ) (ino : ℕ) : Option (ℕ × ℕ × State) :=
  if ino = 0 then (allocCacheBlock s 0).map fun (cb, s) => (cb, (s.cacheBlock cb).ino, s)
  else
    match cb with
    | some cb =>
      if (s.cacheBlock cb).ino = ino then some (cb, ino, s)
      else (searchCacheBlock s ino).map fun cb => (cb, ino, s)
    | none => (searchCacheBlock s ino).map fun cb => (cb, ino, s)

/-- `data[k] = ino` in the cache of a block. -/
def setEntry (s : State) (cb k ino : ℕ) : State :=
  let block := s.cacheBlock cb
  { s with
    cacheBlock := Function.update s.cacheBlock cb
      ⟨block.ino, Bytes.setWord block.cache 4 (4 * k) ino⟩ }

def setInode (s : State) (file : ℕ) (f : CacheInode → CacheInode) : State :=
  { s with cacheInode := Function.update s.cacheInode file (f (s.cacheInode file)) }

/-- `append_block` while the number goes to a block of block numbers. -/
def appendL1 (s : State) (file nblks ino : ℕ) : Option State :=
  (updateCache s (s.cacheInode file).l1 (s.cacheInode file).inode.indirect).map fun (l1, ind, s) =>
    setEntry (setInode s file fun ci =>
      { ci with l1 := some l1, inode := { ci.inode with indirect := ind } }) l1 nblks ino

/-- `append_block` while it goes to one that a block of block numbers refers to. -/
def appendL2 (s : State) (file nblks ino : ℕ) : Option State :=
  (updateCache s (s.cacheInode file).l2 (s.cacheInode file).inode.dbIndirect).bind
    fun (l2, ind2, s) =>
      let s := setInode s file fun ci =>
        { ci with l2 := some l2, inode := { ci.inode with dbIndirect := ind2 } }
      (updateCache s (s.cacheInode file).l1
        ((s.cacheBlock l2).cache.word 4 (4 * (nblks / 1024)))).map fun (l1, ind, s) =>
          setEntry (setInode (setEntry s l2 (nblks / 1024) ind) file fun ci =>
            { ci with l1 := some l1 }) l1 (nblks % 1024) ino

/-- The place that `append_block` finds for the number. -/
def appendIno (s : State) (file ino : ℕ) : Option State :=
  let nblks := (s.cacheInode file).nblks
  if h : nblks < 12 then
    some (setInode s file fun ci =>
      { ci with
        inode := { ci.inode with direct := Function.update ci.inode.direct ⟨nblks, h⟩ ino } })
  else if nblks < 1024 + 12 then appendL1 s file (nblks - 12) ino
  else if nblks < 1024 * 1024 + (1024 + 12) then appendL2 s file (nblks - (1024 + 12)) ino
  else some s

def appendBlock (s : State) (file size ino : ℕ) : Option State :=
  if 4096 < size ∨ sfsMaxFileSize / 4096 ≤ (s.cacheInode file).nblks then none
  else
    (appendIno s file ino).map fun s => setInode s file fun ci =>
      { ci with
        nblks := ci.nblks + 1
        inode := { ci.inode with size := ci.inode.size + size, blocks := ci.inode.blocks + 1 } }

/-- `add_entry`; of the 260 bytes of the entry 256 are written. -/
def addEntry (s : State) (current file : ℕ) (name : List UInt8) : Option State :=
  if (s.cacheInode current).inode.type = sfsTypeDir ∧ name.length ≤ 255 then
    let entry := (s.entry.setWord 4 0 (s.cacheInode file).ino).copy 4
      (fun k => name.getD k 0) (name.length + 1)
    (allocIno { s with entry := entry }).bind fun (ino, s) =>
      (writeBlock s entry 256 ino).bind fun s =>
        (appendBlock s current 256 ino).map fun s => setInode s file fun ci =>
          { ci with inode := { ci.inode with nlinks := ci.inode.nlinks + 1 } }
  else none

/-! ## Runs -/

/-- What the program does between `create_sfs` and `close_sfs`: blocks and inodes are allocated,
    blocks that have been allocated are written, and appended to files, and entries are added. -/
inductive Op where
  | allocIno
  | allocCacheInode (real type : ℕ)
  | writeBlock (data : Bytes) (len ino : ℕ)
  | appendBlock (file size ino : ℕ)
  | addEntry (current file : ℕ) (name : List UInt8)

def Op.step (s : State) : Op → Option State
  | allocIno => (Mksfs.allocIno s).map Prod.snd
  | allocCacheInode real type => (Mksfs.allocCacheInode s real 0 type).map Prod.snd
  | writeBlock data len ino => Mksfs.writeBlock s data len ino
  | appendBlock file size ino => Mksfs.appendBlock s file size ino
  | addEntry current file name => Mksfs.addEntry s current file name

def Op.Legal (s : State) : Op → Prop
  | writeBlock _ _ ino => ino ∈ s.allocated
  | appendBlock file _ _ => file < s.inodeCount
  | addEntry current file _ => current < s.inodeCount ∧ file < s.inodeCount
  | _ => True

end Mksfs

end Ucore
