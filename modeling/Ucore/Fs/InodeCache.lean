/-
  `kern/fs/sfs/sfs_inode.c`, `kern/fs/vfs/inode.c`: the inodes in memory.

  `N` are the addresses of `struct inode` and `P` the processes.  A process is switched out only
  where it waits for `fs_sem` or for the disk, so `sfs_load_inode` and `sfs_reclaim` are cut there
  (`CachePc`) and every piece between is one step.  What `kmalloc`, `sfs_rbuf`, `vop_truncate` and
  `vop_fsync` return is given by the operation.  The counters are not bounded: they count
  references.  `none` is a failed assertion or a loop that does not end.

  `made`, `unlinked`, `freed` and `stuck` record what has happened; the code does not read them.
-/
import Ucore.Lib.Mutex
import Ucore.Libs.Error
import Ucore.Libs.Hash
import Ucore.Libs.List
import Mathlib.Data.Finset.Erase
import Mathlib.Data.Finset.Insert

namespace Ucore

open Intrusive HandOff

def sfsHlistShift : ℕ := 10

def sinHashfn (ino : ℕ) : ℕ := hash32 ino sfsHlistShift

/-- A `list_entry_t` of a mounted sfs. -/
inductive CacheNode (N : Type) where
  | inodeList
  | hashList (i : ℕ)
  | inodeLink (node : N)
  | hashLink (node : N)
  deriving DecidableEq

/-- `struct inode` with its `struct sfs_inode`; `nlinks` is that of `din`. -/
structure Inode where
  refCount : ℤ
  openCount : ℤ
  nlinks : ℕ
  ino : ℕ
  dirty : Bool
  reclaimCount : ℤ

/-- Where a process is. -/
inductive CachePc (N : Type) where
  | out
  /-- Asleep in the `lock_sfs_fs` of `sfs_load_inode`. -/
  | loadAsleep (ino : ℕ)
  /-- Behind it. -/
  | loadLocked (ino : ℕ)
  /-- In `sfs_rbuf`. -/
  | loadReading (ino : ℕ)
  /-- `sfs_load_inode` has returned. -/
  | loaded (ino : ℕ) (ret : Except Errno N)
  /-- Asleep in the `lock_sfs_fs` of `sfs_reclaim`. -/
  | reclaimAsleep (node : N)
  | reclaimLocked (node : N)
  /-- In `vop_truncate`. -/
  | truncating (node : N)
  /-- In `vop_fsync`. -/
  | fsyncing (node : N)
  deriving DecidableEq

structure InodeCache (P N : Type) where
  fsSem : Sema P
  links : Links (CacheNode N)
  inode : N → Inode
  pc : P → CachePc N
  /-- The inodes that are allocated. -/
  live : Finset N
  made : N → ℕ
  unlinked : N → ℕ
  freed : N → ℕ
  /-- The inode could not be written back when it was last released. -/
  stuck : N → Bool

inductive CacheOp (P N : Type) where
  /-- Calls `sfs_load_inode`. -/
  | loadInode (p : P) (ino : ℕ)
  /-- Leaves the `down` of `lock_sfs_fs`. -/
  | wake (p : P)
  /-- Goes on behind `lock_sfs_fs`; `mem` says whether `kmalloc` has memory. -/
  | enter (p : P) (mem : Bool)
  /-- `sfs_rbuf` returns, with the `nlinks` it has read; `mem` is what `alloc_inode` returns. -/
  | read (p : P) (ret : Except Errno ℕ) (mem : Option N)
  | refInc (node : N)
  | refDec (p : P) (node : N)
  | openInc (node : N)
  | openDec (node : N)
  /-- A file operation on an inode in use. -/
  | touch (node : N) (nlinks : ℕ) (dirty : Bool)
  /-- `vop_truncate` returns, with the inode `dirty` or not. -/
  | truncated (p : P) (ret : Option Errno) (dirty : Bool)
  /-- `vop_fsync` returns. -/
  | fsynced (p : P) (ret : Option Errno)

variable {P N : Type} [DecidableEq P] [DecidableEq N]

namespace InodeCache

def goto (w : InodeCache P N) (p : P) (pc : CachePc N) : InodeCache P N :=
  { w with pc := Function.update w.pc p pc }

def setInode (w : InodeCache P N) (node : N) (g : Inode) : InodeCache P N :=
  { w with inode := Function.update w.inode node g }

/-- `lock_sfs_fs`: on to `locked` when `down` returns at once, else to `asleep`. -/
def lockSfsFs (w : InodeCache P N) (p : P) (locked asleep : CachePc N) : InodeCache P N :=
  { w with fsSem := (w.fsSem.down p).1 }.goto p (if 0 < w.fsSem.value then locked else asleep)

def unlockSfsFs (w : InodeCache P N) (p : P) (pc : CachePc N) : InodeCache P N :=
  { w with fsSem := w.fsSem.up.1 }.goto p pc

/-! ## Reference counts -/

def maxInodeCount : ℤ := 0x10000

/-- `inode_check`, which comes before every `vop_`. -/
def inodeCheck (g : Inode) : Bool :=
  g.openCount ≤ g.refCount ∧ 0 ≤ g.openCount ∧ g.refCount < maxInodeCount ∧
    g.openCount < maxInodeCount

def inodeRefInc (w : InodeCache P N) (node : N) : ℤ × InodeCache P N :=
  let g := { w.inode node with refCount := (w.inode node).refCount + 1 }
  (g.refCount, w.setInode node g)

/-- `inode_ref_dec`, up to the `lock_sfs_fs` of `sfs_reclaim` when the last reference goes. -/
def inodeRefDec (w : InodeCache P N) (p : P) (node : N) : Option (InodeCache P N) :=
  let g := w.inode node
  if 0 < g.refCount then
    let g := { g with refCount := g.refCount - 1 }
    let w := w.setInode node g
    if g.refCount = 0 then
      if inodeCheck g then some (w.lockSfsFs p (.reclaimLocked node) (.reclaimAsleep node))
      else none
    else some (w.goto p .out)
  else none

def inodeOpenInc (w : InodeCache P N) (node : N) : InodeCache P N :=
  w.setInode node { w.inode node with openCount := (w.inode node).openCount + 1 }

def inodeOpenDec (w : InodeCache P N) (node : N) : Option (InodeCache P N) :=
  let g := w.inode node
  if 0 < g.openCount then some (w.setInode node { g with openCount := g.openCount - 1 }) else none

/-- `inode_kill` -/
def inodeKill (w : InodeCache P N) (node : N) : Option (InodeCache P N) :=
  if (w.inode node).refCount = 0 ∧ (w.inode node).openCount = 0 then
    some { w with
      live := w.live.erase node
      freed := Function.update w.freed node (w.freed node + 1) }
  else none

/-! ## `sfs_load_inode` -/

def sfsHashList (ino : ℕ) : CacheNode N := .hashList (sinHashfn ino)

def sfsSetLinks (w : InodeCache P N) (node : N) : InodeCache P N :=
  let L := listAdd w.links .inodeList (.inodeLink node)
  { w with links := listAdd L (sfsHashList (w.inode node).ino) (.hashLink node) }

def sfsRemoveLinks (w : InodeCache P N) (node : N) : InodeCache P N :=
  { w with
    links := listDel (listDel w.links (.inodeLink node)) (.hashLink node)
    unlinked := Function.update w.unlinked node (w.unlinked node + 1) }

/-- `sfs_create_inode`, with the inode that `alloc_inode` has returned. -/
def sfsCreateInode (w : InodeCache P N) (node : N) (nlinks ino : ℕ) : InodeCache P N :=
  let w := w.setInode node ⟨0, 0, nlinks, ino, false, 1⟩
  { (w.inodeRefInc node).2 with
    live := insert node w.live
    made := Function.update w.made node (w.made node + 1)
    stuck := Function.update w.stuck node false }

/-- No list of inodes is longer than this. -/
def fuel : ℕ := 2 ^ 32 + 1

/-- `le2sin(le, hash_link)` for the nodes of a list. -/
def hashedSin : CacheNode N → Option N
  | .hashLink node => some node
  | _ => none

def lookupSfsNolock (w : InodeCache P N) (ino : ℕ) : Option (Option N × InodeCache P N) := do
  let list := sfsHashList ino
  let sins ← (← listNodes w.links list fuel list).mapM hashedSin
  match sins.find? fun node => (w.inode node).ino = ino with
  | none => some (none, w)
  | some node =>
    let (refCount, w) := w.inodeRefInc node
    let g := w.inode node
    let w := { w with stuck := Function.update w.stuck node false }
    some (some node, if refCount = 1 then
      w.setInode node { g with reclaimCount := g.reclaimCount + 1 } else w)

/-- `sfs_load_inode` from `lookup_sfs_nolock` to `sfs_rbuf`. -/
def sfsLoadLookup (w : InodeCache P N) (p : P) (ino : ℕ) (mem : Bool) :
    Option (InodeCache P N) := do
  match ← w.lookupSfsNolock ino with
  | (some node, w) => some (w.unlockSfsFs p (.loaded ino (.ok node)))
  | (none, w) =>
    some (if mem then w.goto p (.loadReading ino)
      else w.unlockSfsFs p (.loaded ino (.error .noMem)))

/-- The rest of `sfs_load_inode`. -/
def sfsLoadCreate (w : InodeCache P N) (p : P) (ino : ℕ) (ret : Except Errno ℕ) (mem : Option N) :
    Option (InodeCache P N) :=
  match ret, mem with
  | .error e, _ => some (w.unlockSfsFs p (.loaded ino (.error e)))
  | .ok 0, _ => none
  | .ok _, none => some (w.unlockSfsFs p (.loaded ino (.error .noMem)))
  | .ok nlinks, some node =>
    some (((w.sfsCreateInode node nlinks ino).sfsSetLinks node).unlockSfsFs p
      (.loaded ino (.ok node)))

/-! ## `sfs_reclaim` -/

/-- `sfs_reclaim` from `sfs_remove_links` on; the blocks are the business of `sfs_block_free`. -/
def sfsReclaimFree (w : InodeCache P N) (p : P) (node : N) : Option (InodeCache P N) :=
  ((w.sfsRemoveLinks node).unlockSfsFs p .out).inodeKill node

/-- `failed_unlock` -/
def sfsReclaimFailed (w : InodeCache P N) (p : P) (node : N) : InodeCache P N :=
  { w with stuck := Function.update w.stuck node true }.unlockSfsFs p .out

/-- `sfs_reclaim` behind `vop_truncate`. -/
def sfsReclaimFlush (w : InodeCache P N) (p : P) (node : N) : Option (InodeCache P N) :=
  if (w.inode node).dirty then
    if inodeCheck (w.inode node) then some (w.goto p (.fsyncing node)) else none
  else w.sfsReclaimFree p node

/-- `sfs_reclaim` behind `lock_sfs_fs`. -/
def sfsReclaimCheck (w : InodeCache P N) (p : P) (node : N) : Option (InodeCache P N) :=
  let g := w.inode node
  if 0 < g.reclaimCount then
    let g := { g with reclaimCount := g.reclaimCount - 1 }
    let w := w.setInode node g
    if g.reclaimCount ≠ 0 ∨ g.refCount ≠ 0 then some (w.unlockSfsFs p .out)
    else if g.nlinks = 0 then
      if inodeCheck g then some (w.goto p (.truncating node)) else none
    else w.sfsReclaimFlush p node
  else none

def setDirty (w : InodeCache P N) (node : N) (dirty : Bool) : InodeCache P N :=
  w.setInode node { w.inode node with dirty := dirty }

/-! ## Steps -/

def step (w : InodeCache P N) : CacheOp P N → Option (InodeCache P N)
  | .loadInode p ino => some (w.lockSfsFs p (.loadLocked ino) (.loadAsleep ino))
  | .wake p =>
    match w.pc p with
    | .loadAsleep ino => some (w.goto p (.loadLocked ino))
    | .reclaimAsleep node => some (w.goto p (.reclaimLocked node))
    | _ => some w
  | .enter p mem =>
    match w.pc p with
    | .loadLocked ino => w.sfsLoadLookup p ino mem
    | .reclaimLocked node => w.sfsReclaimCheck p node
    | _ => some w
  | .read p ret mem =>
    match w.pc p with
    | .loadReading ino => w.sfsLoadCreate p ino ret mem
    | _ => some w
  | .refInc node => some (w.inodeRefInc node).2
  | .refDec p node => w.inodeRefDec p node
  | .openInc node => some (w.inodeOpenInc node)
  | .openDec node => w.inodeOpenDec node
  | .touch node nlinks dirty =>
    some (w.setInode node { w.inode node with nlinks := nlinks, dirty := dirty })
  | .truncated p ret dirty =>
    match w.pc p, ret with
    | .truncating node, none => (w.setDirty node dirty).sfsReclaimFlush p node
    | .truncating node, some _ => some ((w.setDirty node dirty).sfsReclaimFailed p node)
    | _, _ => some w
  | .fsynced p ret =>
    match w.pc p, ret with
    | .fsyncing node, none => (w.setDirty node false).sfsReclaimFree p node
    | .fsyncing node, some _ => some ((w.setDirty node true).sfsReclaimFailed p node)
    | _, _ => some w

/-- The process is in none of the functions. -/
def Idle : CachePc N → Prop
  | .out | .loaded _ _ => True
  | _ => False

/-- References are dropped and copied by their owners, an open inode is also referenced, `kmalloc`
    hands out free memory, and what is on the disk under an inode number is an inode in use. -/
def Legal (w : InodeCache P N) : CacheOp P N → Prop
  | .loadInode p ino => Idle (w.pc p) ∧ ino < 2 ^ 32
  | .wake p => p ∉ w.fsSem.queue
  | .enter _ _ => True
  | .read _ ret mem => (∀ node ∈ mem, node ∉ w.live) ∧ ret ≠ .ok 0
  | .refInc node => node ∈ w.live ∧ 0 < (w.inode node).refCount
  | .refDec p node =>
    Idle (w.pc p) ∧ node ∈ w.live ∧ (w.inode node).openCount < (w.inode node).refCount
  | .openInc node => node ∈ w.live ∧ (w.inode node).openCount < (w.inode node).refCount
  | .openDec node => node ∈ w.live ∧ 0 < (w.inode node).openCount
  | .touch node _ _ => node ∈ w.live ∧ 0 < (w.inode node).refCount
  | .truncated _ _ _ | .fsynced _ _ => True

instance : DecidablePred (Idle (N := N))
  | .out | .loaded _ _ => instDecidableTrue
  | .loadAsleep _ | .loadLocked _ | .loadReading _ | .reclaimAsleep _ | .reclaimLocked _
  | .truncating _ | .fsyncing _ => instDecidableFalse

instance (w : InodeCache P N) : ∀ op, Decidable (w.Legal op)
  | .loadInode _ _ | .read _ _ _ | .refInc _ | .openInc _ | .openDec _ | .touch _ _ _ =>
    inferInstanceAs (Decidable (_ ∧ _))
  | .refDec _ _ => inferInstanceAs (Decidable (_ ∧ _ ∧ _))
  | .wake _ => inferInstanceAs (Decidable (_ ∉ _))
  | .enter _ _ | .truncated _ _ _ | .fsynced _ _ => instDecidableTrue

/-- `sfs_do_mount` -/
def mount (L : Links (CacheNode N)) (inode : N → Inode) : InodeCache P N where
  fsSem := ⟨1, []⟩
  links := (List.range (2 ^ sfsHlistShift)).foldl (fun L i => listInit L (.hashList i))
    (listInit L .inodeList)
  inode := inode
  pc := fun _ => .out
  live := ∅
  made := fun _ => 0
  unlinked := fun _ => 0
  freed := fun _ => 0
  stuck := fun _ => false

end InodeCache

end Ucore
