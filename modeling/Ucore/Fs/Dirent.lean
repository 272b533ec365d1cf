/-
  `sfs_dirent_read_nolock`, `sfs_dirent_search_nolock`, `sfs_dirent_findino_nolock` and
  `sfs_getdirentry` of `sfs_inode.c`, with `iobuf.c`: the entries of a directory.

  An entry takes a block.  `SFS_MAX_FNAME_LEN` is 255, so a `struct sfs_disk_entry` has 260 bytes
  and `sfs_dentry_size` is 256.  A string that is passed is the list of its characters.  The callers
  of `sfs_dirent_search_nolock` pass `NULL` for `empty_slot`.

  * `direntSearch_reads`, `findino_reads`, `getdirentrySub_reads`: what is found in a directory.
-/
import Ucore.Fs.FileIo

namespace Ucore

/-! ## `iobuf.c` -/

/-- `struct iobuf`; `io_base` is the address `base` in `mem`. -/
structure Iobuf where
  mem : Bytes
  base : ℕ
  offset : ℤ
  len : ℕ
  resid : ℕ

namespace Iobuf

/-- `iobuf_init`; `mem` are the bytes at `base`. -/
def init (mem : Bytes) (len : ℕ) (offset : ℤ) : Iobuf := ⟨mem, 0, offset, len, len⟩

def used (iob : Iobuf) : ℕ := iob.len - iob.resid

/-- `iobuf_skip`, for at most `io_resid` bytes. -/
def skip (iob : Iobuf) (n : ℕ) : Iobuf :=
  { iob with base := iob.base + n, offset := iob.offset + n, resid := iob.resid - n }

/-- `iobuf_move` to the buffer. -/
def move (iob : Iobuf) (data : Bytes) (len : ℕ) : Option Errno × Iobuf :=
  let alen := min iob.resid len
  let iob := { iob with mem := iob.mem.copy iob.base data alen }.skip alen
  (if len - alen = 0 then none else some .noMem, iob)

end Iobuf

/-! ## Entries -/

/-- `struct sfs_disk_entry` as it is read. -/
structure DiskEntry where
  ino : ℕ
  name : Bytes

namespace DiskEntry

/-- The entry in a block; `name[SFS_MAX_FNAME_LEN]` is set to NUL. -/
def ofBytes (m : Bytes) : DiskEntry := ⟨m.word 4 0, fun j => if j < 255 then m (4 + j) else 0⟩

/-- `entry->name` as a string. -/
def str (entry : DiskEntry) : List UInt8 := entry.name.str 255

end DiskEntry

section
variable (dev : Device)

def direntRead (ino slot : ℕ) : K DiskEntry := do
  let s ← Code.get
  Code.assert ((s.din ino).type = sfsTypeDir ∧ slot < (s.din ino).blocks)
  let b ← bmapLoad dev ino slot
  assertInuse b
  let m ← rbuf dev 260 b 0
  pure (.ofBytes m)

/-- The loop of `sfs_dirent_search_nolock`: the slot and `entry->ino`. -/
def searchLoop (ino : ℕ) (name : List UInt8) : ℕ → ℕ → K (ℕ × ℕ)
  | _, 0 => Code.throw .noEnt
  | slot, n + 1 => do
    let entry ← direntRead dev ino slot
    if entry.ino = 0 then searchLoop ino name (slot + 1) n
    else if name = entry.str then pure (slot, entry.ino)
    else searchLoop ino name (slot + 1) n

def direntSearch (ino : ℕ) (name : List UInt8) : K (ℕ × ℕ) := do
  Code.assert (name.length ≤ 255)
  kmalloc dev
  let s ← Code.get
  searchLoop dev ino name 0 (s.din ino).blocks

/-- The loop of `sfs_dirent_findino_nolock`. -/
def findinoLoop (ino target : ℕ) : ℕ → ℕ → K DiskEntry
  | _, 0 => Code.throw .noEnt
  | slot, n + 1 => do
    let entry ← direntRead dev ino slot
    if entry.ino = target then pure entry
    else findinoLoop ino target (slot + 1) n

def direntFindino (ino target : ℕ) : K DiskEntry := do
  let s ← Code.get
  findinoLoop dev ino target 0 (s.din ino).blocks

/-- The loop of `sfs_getdirentry_sub_nolock`; `slot` counts the entries that are left. -/
def getdirentryLoop (ino : ℕ) : ℕ → ℕ → ℤ → K DiskEntry
  | _, 0, _ => Code.throw .noEnt
  | i, n + 1, slot => do
    let entry ← direntRead dev ino i
    if entry.ino ≠ 0 then
      if slot = 0 then pure entry
      else getdirentryLoop ino (i + 1) n (slot - 1)
    else getdirentryLoop ino (i + 1) n slot

def getdirentrySub (ino : ℕ) (slot : ℤ) : K DiskEntry := do
  let s ← Code.get
  getdirentryLoop dev ino 0 (s.din ino).blocks slot

/-- `sfs_getdirentry`; `slot` is an `int`, which is compared as an unsigned number.  Files of the
    type `SFS_TYPE_FILE` do not have the operation. -/
def getdirentry (ino : ℕ) (iob : Iobuf) : K (Option Errno × Iobuf) := do
  let s ← Code.get
  Code.assert ((s.din ino).type = sfsTypeDir)
  kmalloc dev
  if iob.offset < 0 ∨ iob.offset % 256 ≠ 0 then Code.throw .inval
  else
    let slot := Int.bmod (iob.offset / 256) (2 ^ 32)
    if ((s.din ino).blocks : ℤ) < slot % 2 ^ 32 then Code.throw .noEnt
    else do
      let entry ← getdirentrySub dev ino slot
      pure (iob.move entry.name 256)

end

variable {dev : Device} {I : Finset ℕ} {E : Set ℕ} {s t : Sfs} {i k n : ℕ} {α β : Type} {x : K α}
  {f : α → K β} {a : α} {r : Except Errno β} {e : Errno}

/-! ## Directories -/

/-- A directory in memory that has its blocks. -/
structure Directory (s : Sfs) (i : ℕ) : Prop where
  cached : s.cached i = true
  type : (s.din i).type = sfsTypeDir
  cap : (s.din i).blocks ≤ 1036
  whole : WholeFile s i

/-- What is found, or `-E_NOENT`. -/
def orNoEnt {α : Type} : Option α → Except Errno α
  | some a => .ok a
  | none => .error .noEnt

namespace Sfs

/-- The entry in a slot of directory `i`. -/
def entry (s : Sfs) (i slot : ℕ) : DiskEntry := .ofBytes (s.disk (s.bmap i slot))

/-- The slots that are not empty, in their order. -/
def liveSlots (s : Sfs) (i : ℕ) : List ℕ :=
  (List.range (s.dinOf i).blocks).filter fun k => (s.entry i k).ino ≠ 0

/-- The first slot with the name. -/
def slotOf (s : Sfs) (i : ℕ) (name : List UInt8) : Option ℕ :=
  (List.range (s.dinOf i).blocks).find? fun k => (s.entry i k).ino ≠ 0 ∧ name = (s.entry i k).str

/-- The first slot with the inode. -/
def slotOfIno (s : Sfs) (i target : ℕ) : Option ℕ :=
  (List.range (s.dinOf i).blocks).find? fun k => (s.entry i k).ino = target

end Sfs

theorem Directory.dinOf (h : Directory s i) : s.dinOf i = s.din i := Acct.dinOf_of_cached h.cached

theorem Directory.wait (h : Directory s i) (n : ℕ) : Directory (s.wait n) i :=
  ⟨h.cached, h.type, h.cap, h.whole⟩

theorem direntRead_reads (h : Acct I E s) (hd : Directory s i) (hk : k < (s.din i).blocks) :
    s.Reads dev (direntRead dev i k) (.ok (s.entry i k)) := by
  have hcap : k < 1036 := lt_of_lt_of_le hk hd.cap
  have h0 := hd.whole k hcap hk
  have hu := h.data_used (h.cached i hd.cached) hcap h0
  refine Sfs.Reads.assert ⟨hd.type, hk⟩ ((bmapLoad_reads h hd.cached hcap hk h0).bind fun n => ?_)
  have hin : (s.wait n).Reads dev (assertInuse (s.bmap i k)) (.ok ()) :=
    ⟨0, _, (assertInuse_iff (h.wait n).geo.bits).2 ⟨hu, rfl, rfl⟩, .inl rfl⟩
  refine hin.bind fun m => ?_
  rw [Sfs.wait_wait]
  exact (rbuf_reads_start (s := s.wait (n + m)) hu.1 hu.2.1 (by omega)).bind fun _ => .pure _

theorem searchLoop_reads {name : List UInt8} : ∀ {n k : ℕ} {s : Sfs}, Acct I E s → Directory s i →
    k + n = (s.din i).blocks → s.Reads dev (searchLoop dev i name k n)
      (orNoEnt (((List.range' k n).find? fun k =>
        (s.entry i k).ino ≠ 0 ∧ name = (s.entry i k).str).map fun k => (k, (s.entry i k).ino)))
  | 0, k, s, _, _, _ => .throw _
  | n + 1, k, s, h, hd, hk => by
    refine (direntRead_reads h hd (by omega)).bind fun m => ?_
    have hk' : k + 1 + n = ((s.wait m).din i).blocks := by
      change k + 1 + n = (s.din i).blocks
      omega
    rw [List.range'_succ, List.find?_cons]
    split
    · rename_i h0
      rw [decide_eq_false (fun h => h.1 h0)]
      exact searchLoop_reads (h.wait m) (hd.wait m) hk'
    · rename_i h0
      by_cases hn : name = (s.entry i k).str
      · rw [if_pos hn, decide_eq_true ⟨h0, hn⟩]
        exact .pure _
      · rw [if_neg hn, decide_eq_false (fun h => hn h.2)]
        exact searchLoop_reads (h.wait m) (hd.wait m) hk'

/-- **`sfs_dirent_search_nolock`** finds the first slot with the name. -/
theorem direntSearch_reads (h : Acct I E s) (hd : Directory s i) {name : List UInt8}
    (hlen : name.length ≤ 255) : s.Reads dev (direntSearch dev i name)
      (orNoEnt ((s.slotOf i name).map fun k => (k, (s.entry i k).ino))) := by
  refine .assert hlen (kmalloc_reads.bind fun n => ?_)
  have hloop : (s.wait n).Reads dev (searchLoop dev i name 0 (s.din i).blocks) _ :=
    searchLoop_reads (h.wait n) (hd.wait n) (Nat.zero_add _)
  rw [← List.range_eq_range'] at hloop
  rw [Sfs.slotOf, hd.dinOf]
  exact hloop

theorem findinoLoop_reads {target : ℕ} : ∀ {n k : ℕ} {s : Sfs}, Acct I E s → Directory s i →
    k + n = (s.din i).blocks → s.Reads dev (findinoLoop dev i target k n)
      (orNoEnt (((List.range' k n).find? fun k => (s.entry i k).ino = target).map (s.entry i)))
  | 0, k, s, _, _, _ => .throw _
  | n + 1, k, s, h, hd, hk => by
    refine (direntRead_reads h hd (by omega)).bind fun m => ?_
    rw [List.range'_succ, List.find?_cons]
    split
    · rename_i h0
      rw [decide_eq_true h0]
      exact .pure _
    · rename_i h0
      rw [decide_eq_false h0]
      have hk' : k + 1 + n = ((s.wait m).din i).blocks := by
        change k + 1 + n = (s.din i).blocks
        omega
      exact findinoLoop_reads (h.wait m) (hd.wait m) hk'

/-- **`sfs_dirent_findino_nolock`** finds the first entry with the inode. -/
theorem direntFindino_reads (h : Acct I E s) (hd : Directory s i) {target : ℕ} :
    s.Reads dev (direntFindino dev i target)
      (orNoEnt ((s.slotOfIno i target).map (s.entry i))) := by
  have hloop : s.Reads dev (findinoLoop dev i target 0 (s.din i).blocks) _ :=
    findinoLoop_reads h hd (Nat.zero_add _)
  rw [← List.range_eq_range'] at hloop
  rw [Sfs.slotOfIno, hd.dinOf]
  exact hloop

theorem getdirentryLoop_reads : ∀ {n k slot : ℕ} {s : Sfs}, Acct I E s → Directory s i →
    k + n = (s.din i).blocks → s.Reads dev (getdirentryLoop dev i k n slot)
      (orNoEnt ((((List.range' k n).filter fun k => (s.entry i k).ino ≠ 0)[slot]?).map (s.entry i)))
  | 0, k, slot, s, _, _, _ => .throw _
  | n + 1, k, slot, s, h, hd, hk => by
    refine (direntRead_reads h hd (by omega)).bind fun m => ?_
    have hk' : k + 1 + n = ((s.wait m).din i).blocks := by
      change k + 1 + n = (s.din i).blocks
      omega
    rw [List.range'_succ, List.filter_cons]
    split
    · rename_i h0
      rw [if_pos (decide_eq_true h0)]
      cases slot with
      | zero => exact .pure _
      | succ slot =>
        rw [if_neg (by omega), List.getElem?_cons_succ, Nat.cast_add_one, Int.add_sub_cancel]
        exact getdirentryLoop_reads (h.wait m) (hd.wait m) hk'
    · rename_i h0
      rw [if_neg (by simpa using h0)]
      exact getdirentryLoop_reads (h.wait m) (hd.wait m) hk'

/-- **`sfs_getdirentry_sub_nolock`** finds the entry by its rank. -/
theorem getdirentrySub_reads (h : Acct I E s) (hd : Directory s i) {slot : ℕ} :
    s.Reads dev (getdirentrySub dev i slot) (orNoEnt ((s.liveSlots i)[slot]?.map (s.entry i))) := by
  have hloop : s.Reads dev (getdirentryLoop dev i 0 (s.din i).blocks slot) _ :=
    getdirentryLoop_reads h hd (Nat.zero_add _)
  rw [← List.range_eq_range'] at hloop
  rw [Sfs.liveSlots, hd.dinOf]
  exact hloop

theorem length_liveSlots_le (s : Sfs) (i : ℕ) : (s.liveSlots i).length ≤ (s.dinOf i).blocks := by
  have h := List.length_filter_le (fun k => decide ((s.entry i k).ino ≠ 0))
    (List.range (s.dinOf i).blocks)
  rwa [List.length_range] at h

/-- **`sfs_getdirentry`** moves the name of an entry, of which the offset gives the rank. -/
theorem getdirentry_reads (h : Acct I E s) (hd : Directory s i) {iob : Iobuf} {rank : ℕ}
    (hoff : iob.offset = 256 * rank) (hrank : rank < 2 ^ 31) :
    s.Reads dev (getdirentry dev i iob)
      (orNoEnt ((s.liveSlots i)[rank]?.map fun k => iob.move (s.entry i k).name 256)) := by
  have hslot : Int.bmod (iob.offset / 256) (2 ^ 32) = rank := by
    rw [hoff, Int.mul_ediv_cancel_left _ (by decide), Int.bmod_def]
    omega
  refine .assert hd.type (kmalloc_reads.bind fun n => ?_)
  rw [if_neg (by omega), hslot]
  dsimp only
  split
  · rename_i hlt
    have hnone : (s.liveSlots i)[rank]? = none := by
      rw [List.getElem?_eq_none_iff]
      have hle := length_liveSlots_le s i
      rw [hd.dinOf] at hle
      omega
    rw [hnone]
    exact .throw _
  · have hsub : (s.wait n).Reads dev (getdirentrySub dev i rank)
        (orNoEnt ((s.liveSlots i)[rank]?.map (s.entry i))) :=
      getdirentrySub_reads (h.wait n) (hd.wait n)
    cases hk : (s.liveSlots i)[rank]? with
    | none =>
      rw [hk] at hsub
      exact hsub.bind_error
    | some k =>
      rw [hk] at hsub
      exact hsub.bind fun m => .pure _

end Ucore
