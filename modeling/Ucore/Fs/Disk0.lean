/-
  `kern/fs/devs/dev_disk0.c`, with `kern/driver/ide.c` and `kern/driver/ramdisk.c`.

  A block has 4096 bytes, that is 8 sectors; the bounce buffer has 4 blocks.  `blkno`, `nblks` and
  the numbers of sectors are 32-bit numbers, an `off_t` is an integer.  The lock, which no other
  code takes, is left out.  `none` is an assertion that fails.

  * `ioLoop_eq`: the loop, as one copy;
  * `io_iff`: when a request is served, or refused, as it should be.
-/
import Ucore.Fs.Dirent

namespace Ucore

/-! ## The device -/

/-- The ramdisk and the bounce buffer; `size` are its sectors, and `disk` are the bytes from
    `iobase` on. -/
structure Disk0 where
  size : ℕ
  /-- It is the quotient of an `unsigned int` and `SECTSIZE`. -/
  size_lt : size < 2 ^ 23
  disk : Bytes
  buffer : Bytes

namespace Disk0

def maxNsecs : ℕ := 128

def maxDiskNsecs : ℕ := 0x10000000

def bufsize : ℕ := 4 * 4096

/-- `d_blocks` -/
def blocks (d : Disk0) : ℕ := d.size / 8

/-- `MIN(nsecs, dev->size - secno)` -/
def clamp (d : Disk0) (secno nsecs : ℕ) : ℕ := min nsecs ((d.size + 2 ^ 64 - secno) % 2 ^ 64)

def ramdiskRead (d : Disk0) (secno nsecs : ℕ) : Disk0 :=
  { d with buffer := d.buffer.copy 0 (d.disk.from' (secno * 512)) (d.clamp secno nsecs * 512) }

def ramdiskWrite (d : Disk0) (secno nsecs : ℕ) : Disk0 :=
  { d with disk := d.disk.copy (secno * 512) d.buffer (d.clamp secno nsecs * 512) }

/-- `ide_read_secs` and `ide_write_secs`, with what they do on the device; it is valid. -/
def ideSecs (op : ℕ → ℕ → Disk0) (secno nsecs : ℕ) : Option Disk0 :=
  if nsecs ≤ maxNsecs ∧ secno < maxDiskNsecs ∧ secno + nsecs ≤ maxDiskNsecs then
    some (op secno nsecs)
  else none

/-- `disk0_read_blks_nolock` -/
def readBlks (d : Disk0) (blkno nblks : ℕ) : Option Disk0 :=
  ideSecs d.ramdiskRead (blkno * 8 % 2 ^ 32) (nblks * 8 % 2 ^ 32)

/-- `disk0_write_blks_nolock` -/
def writeBlks (d : Disk0) (blkno nblks : ℕ) : Option Disk0 :=
  ideSecs d.ramdiskWrite (blkno * 8 % 2 ^ 32) (nblks * 8 % 2 ^ 32)

end Disk0

/-- `iobuf_move`: the number of bytes copied, the buffer and `data`. -/
def iobufMove (iob : Iobuf) (data : Bytes) (len : ℕ) (m2b : Bool) : ℕ × Iobuf × Bytes :=
  let alen := min iob.resid len
  if m2b then (alen, (iob.move data len).2, data)
  else (alen, iob.skip alen, data.copy 0 (iob.mem.from' iob.base) alen)

namespace Disk0

/-- The loop of `disk0_io`. -/
def ioLoop (write : Bool) : ℕ → Disk0 → Iobuf → ℕ → ℕ → Option (Disk0 × Iobuf)
  | 0, _, _, _, _ => none
  | n + 1, d, iob, resid, blkno =>
    if resid = 0 then some (d, iob)
    else if write then
      let (copied, iob, buffer) := iobufMove iob d.buffer bufsize false
      if copied ≠ 0 ∧ copied ≤ resid ∧ copied % 4096 = 0 then
        let nblks := copied / 4096
        ({ d with buffer }.writeBlks blkno nblks).bind fun d =>
          ioLoop write n d iob (resid - copied) ((blkno + nblks) % 2 ^ 32)
      else none
    else
      let alen := if resid < bufsize then resid else bufsize
      let nblks := alen / 4096
      (d.readBlks blkno nblks).bind fun d =>
        let (copied, iob, buffer) := iobufMove iob d.buffer alen true
        if copied = alen ∧ copied % 4096 = 0 then
          ioLoop write n { d with buffer } iob (resid - copied) ((blkno + nblks) % 2 ^ 32)
        else none

/-- `blkno` and `nblks` as they are computed from the offset and the length. -/
def blkno (iob : Iobuf) : ℕ := (iob.offset.tdiv 4096 % 2 ^ 32).toNat

def nblks (iob : Iobuf) : ℕ := iob.resid / 4096 % 2 ^ 32

def io (d : Disk0) (iob : Iobuf) (write : Bool) : Option (Option Errno × Disk0 × Iobuf) :=
  if iob.offset.tmod 4096 ≠ 0 ∨ iob.resid % 4096 ≠ 0 then some (some .inval, d, iob)
  else if d.blocks < (blkno iob + nblks iob) % 2 ^ 32 then some (some .inval, d, iob)
  else if nblks iob = 0 then some (none, d, iob)
  else (ioLoop write (iob.resid + 1) d iob iob.resid (blkno iob)).map fun r => (none, r)

end Disk0

/-! ## What a request is to do -/

/-- A request of whole blocks. -/
def Iobuf.Aligned (iob : Iobuf) : Prop := (4096 : ℤ) ∣ iob.offset ∧ 4096 ∣ iob.resid

/-- A request within the blocks of the device. -/
def Disk0.Inside (d : Disk0) (iob : Iobuf) : Prop :=
  0 ≤ iob.offset ∧ iob.offset + iob.resid ≤ d.blocks * 4096

/-- The buffer when all of it is transferred. -/
def Iobuf.done (iob : Iobuf) : Iobuf :=
  { iob with base := iob.base + iob.resid, offset := iob.offset + iob.resid, resid := 0 }

namespace Disk0

/-- All of the request is read, or written, by one copy at a byte of the disk. -/
def transferred (d : Disk0) (iob : Iobuf) (write : Bool) (off : ℕ) (buffer : Bytes) :
    Disk0 × Iobuf :=
  if write then
    ({ d with disk := d.disk.copy off (iob.mem.from' iob.base) iob.resid, buffer }, iob.done)
  else
    ({ d with buffer }, { iob.done with mem := iob.mem.copy iob.base (d.disk.from' off) iob.resid })

variable {d : Disk0} {iob : Iobuf} {write : Bool} {blkno nblks resid n : ℕ}

/-! ## Blocks -/

theorem clamp_eq (h : (blkno + nblks) * 8 ≤ d.size) :
    d.clamp (blkno * 8) (nblks * 8) = nblks * 8 := by
  have hs := d.size_lt
  rw [clamp]
  omega

/-- Up to four blocks of the device. -/
theorem ideSecs_eq (op : ℕ → ℕ → Disk0) (h : (blkno + nblks) * 8 ≤ d.size) (hn : nblks ≤ 4) :
    ideSecs op (blkno * 8 % 2 ^ 32) (nblks * 8 % 2 ^ 32) = some (op (blkno * 8) (nblks * 8)) := by
  have hs := d.size_lt
  rw [Nat.mod_eq_of_lt (by omega), Nat.mod_eq_of_lt (by omega), ideSecs,
    if_pos ⟨by rw [maxNsecs]; omega, by rw [maxDiskNsecs]; omega, by rw [maxDiskNsecs]; omega⟩]

theorem bytes_eq (n : ℕ) : n * 8 * 512 = 4096 * n := by omega

theorem readBlks_eq (h : (blkno + nblks) * 8 ≤ d.size) (hn : nblks ≤ 4) :
    d.readBlks blkno nblks = some
      { d with buffer := d.buffer.copy 0 (d.disk.from' (4096 * blkno)) (4096 * nblks) } := by
  rw [readBlks, ideSecs_eq _ h hn, ramdiskRead, clamp_eq h, bytes_eq, bytes_eq]

theorem writeBlks_eq (h : (blkno + nblks) * 8 ≤ d.size) (hn : nblks ≤ 4) :
    d.writeBlks blkno nblks = some
      { d with disk := d.disk.copy (4096 * blkno) d.buffer (4096 * nblks) } := by
  rw [writeBlks, ideSecs_eq _ h hn, ramdiskWrite, clamp_eq h, bytes_eq, bytes_eq]

/-! ## The loop -/

/-- The blocks that one round transfers. -/
theorem chunk (hr : 4096 ∣ resid) (h0 : resid ≠ 0) : ∃ k, k ≠ 0 ∧ k ≤ 4 ∧
    min resid bufsize = 4096 * k ∧ 4096 ∣ resid - 4096 * k := by
  obtain ⟨m, rfl⟩ := hr
  refine ⟨min m 4, by omega, Nat.min_le_right _ _, ?_, ?_⟩
  · rw [bufsize]
    omega
  · rw [← Nat.mul_sub]
    exact Nat.dvd_mul_right _ _

/-- A round of the loop that reads. -/
theorem readRound {k rest : ℕ} (hk0 : k ≠ 0) (hk4 : k ≤ 4)
    (hmin : min iob.resid bufsize = 4096 * k) (hrest : iob.resid = 4096 * k + rest)
    (hin : 4096 * blkno + iob.resid ≤ 512 * d.size) :
    ioLoop false (n + 1) d iob iob.resid blkno =
      ioLoop false n
        { d with buffer := d.buffer.copy 0 (d.disk.from' (4096 * blkno)) (4096 * k) }
        { mem := iob.mem.copy iob.base (d.disk.from' (4096 * blkno)) (4096 * k)
          base := iob.base + 4096 * k
          offset := iob.offset + (4096 * k : ℕ)
          len := iob.len
          resid := rest } rest (blkno + k) := by
  have hsize := d.size_lt
  have halen : (if iob.resid < bufsize then iob.resid else bufsize) = 4096 * k := by
    rw [← hmin]
    split <;> omega
  have hle : (blkno + k) * 8 ≤ d.size := by omega
  have hread := readBlks_eq hle hk4
  have hcopied : min iob.resid (4096 * k) = 4096 * k := by omega
  have hmem : iob.mem.copy iob.base (d.buffer.copy 0 (d.disk.from' (4096 * blkno)) (4096 * k))
      (4096 * k) = iob.mem.copy iob.base (d.disk.from' (4096 * blkno)) (4096 * k) :=
    Bytes.copy_congr fun j hj => by
      rw [Bytes.copy_of_mem (Nat.zero_le j) (by omega), Nat.sub_zero]
  rw [ioLoop, if_neg (by omega), if_neg Bool.false_ne_true, halen]
  dsimp only
  rw [Nat.mul_div_cancel_left k (by decide), hread, Option.bind_some, iobufMove,
    if_pos rfl, hcopied]
  dsimp only
  rw [if_pos ⟨rfl, Nat.mul_mod_right 4096 k⟩, Nat.mod_eq_of_lt (by omega)]
  have hsub : iob.resid - 4096 * k = rest := by omega
  simp only [Iobuf.move, Iobuf.skip, hcopied, hmem, hsub]

/-- A round of the loop that writes. -/
theorem writeRound {k rest : ℕ} (hk0 : k ≠ 0) (hk4 : k ≤ 4)
    (hmin : min iob.resid bufsize = 4096 * k) (hrest : iob.resid = 4096 * k + rest)
    (hin : 4096 * blkno + iob.resid ≤ 512 * d.size) :
    ioLoop true (n + 1) d iob iob.resid blkno =
      ioLoop true n
        { d with
          disk := d.disk.copy (4096 * blkno) (iob.mem.from' iob.base) (4096 * k)
          buffer := d.buffer.copy 0 (iob.mem.from' iob.base) (4096 * k) }
        { mem := iob.mem
          base := iob.base + 4096 * k
          offset := iob.offset + (4096 * k : ℕ)
          len := iob.len
          resid := rest } rest (blkno + k) := by
  have h0 : 4096 * k ≠ 0 := by omega
  have hresid : 4096 * k ≤ iob.resid := by omega
  have hsize := d.size_lt
  have hle : (blkno + k) * 8 ≤ d.size := by omega
  have hwrite := writeBlks_eq
    (d := { d with buffer := d.buffer.copy 0 (iob.mem.from' iob.base) (4096 * k) }) hle hk4
  have hdisk : d.disk.copy (4096 * blkno) (d.buffer.copy 0 (iob.mem.from' iob.base) (4096 * k))
      (4096 * k) = d.disk.copy (4096 * blkno) (iob.mem.from' iob.base) (4096 * k) :=
    Bytes.copy_congr fun j hj => by
      rw [Bytes.copy_of_mem (Nat.zero_le j) (by omega), Nat.sub_zero]
  rw [ioLoop, if_neg (by omega), if_pos rfl, iobufMove, if_neg Bool.false_ne_true, hmin]
  dsimp only
  rw [if_pos ⟨h0, hresid, Nat.mul_mod_right 4096 k⟩, Nat.mul_div_cancel_left k (by decide), hwrite,
    Option.bind_some, Nat.mod_eq_of_lt (by omega)]
  have hsub : iob.resid - 4096 * k = rest := by omega
  simp only [Iobuf.skip, hdisk, hsub]

/-- A request that is done is transferred. -/
theorem transferred_zero (h0 : iob.resid = 0) (off : ℕ) :
    d.transferred iob write off d.buffer = (d, iob) := by
  have hdone : iob.done = iob := by
    rw [Iobuf.done, h0, Nat.cast_zero, Int.add_zero, Nat.add_zero, ← h0]
  rw [transferred, h0, Bytes.copy_zero, Bytes.copy_zero, hdone]
  split <;> rfl

/-- What is left of a request behind its first `a` bytes, with what they have done. -/
def behind (d : Disk0) (iob : Iobuf) (write : Bool) (off a : ℕ) (buffer : Bytes) :
    Disk0 × Iobuf :=
  let r := d.transferred { iob with resid := a } write off buffer
  (r.1, { r.2 with resid := iob.resid - a })

/-- A request is transferred in two parts. -/
theorem transferred_behind {a off : ℕ} (ha : a ≤ iob.resid) (b buffer : Bytes) :
    (d.behind iob write off a b).1.transferred (d.behind iob write off a b).2 write
      (off + a) buffer =
      d.transferred iob write off buffer := by
  obtain ⟨rest, hrest⟩ := Nat.exists_eq_add_of_le ha
  cases write with
  | false =>
    have hcopy : (iob.mem.copy iob.base (d.disk.from' off) a).copy (iob.base + a)
          (d.disk.from' (off + a)) rest =
        iob.mem.copy iob.base (d.disk.from' off) (a + rest) :=
      Bytes.copy_copy (fun _ _ => rfl) fun j _ => by rw [Bytes.from', Bytes.from', Nat.add_assoc]
    simp only [behind, transferred, Iobuf.done, hrest, Nat.add_sub_cancel_left, hcopy, Nat.cast_add,
      Nat.add_assoc, Int.add_assoc, Bool.false_eq_true, if_false]
  | true =>
    have hcopy : (d.disk.copy off (iob.mem.from' iob.base) a).copy (off + a)
          (iob.mem.from' (iob.base + a)) rest =
        d.disk.copy off (iob.mem.from' iob.base) (a + rest) :=
      Bytes.copy_copy (fun _ _ => rfl) fun j _ => by rw [Bytes.from', Bytes.from', Nat.add_assoc]
    simp only [behind, transferred, Iobuf.done, hrest, Nat.add_sub_cancel_left, hcopy, Nat.cast_add,
      Nat.add_assoc, Int.add_assoc, if_true]

/-- **A round** transfers the first blocks of the request. -/
theorem round (write : Bool) {k : ℕ} (hk0 : k ≠ 0) (hk4 : k ≤ 4)
    (hmin : min iob.resid bufsize = 4096 * k) (hin : 4096 * blkno + iob.resid ≤ 512 * d.size) :
    ∃ buffer, ioLoop write (n + 1) d iob iob.resid blkno =
        ioLoop write n (d.behind iob write (4096 * blkno) (4096 * k) buffer).1
          (d.behind iob write (4096 * blkno) (4096 * k) buffer).2 (iob.resid - 4096 * k)
          (blkno + k) ∧
      ∀ j, bufsize ≤ j → buffer j = d.buffer j := by
  have hbuf : 4096 * k ≤ bufsize := hmin ▸ Nat.min_le_right _ _
  have hrest : iob.resid = 4096 * k + (iob.resid - 4096 * k) := by omega
  cases write with
  | false =>
    exact ⟨_, readRound hk0 hk4 hmin hrest hin, fun j hj => Bytes.copy_of_not_mem (by omega)⟩
  | true =>
    exact ⟨_, writeRound hk0 hk4 hmin hrest hin, fun j hj => Bytes.copy_of_not_mem (by omega)⟩

/-- **The loop** is one copy. -/
theorem ioLoop_eq (write : Bool) : ∀ (n : ℕ) (d : Disk0) (iob : Iobuf) (blkno : ℕ),
    iob.resid < n → 4096 ∣ iob.resid → 4096 * blkno + iob.resid ≤ 512 * d.size →
    ∃ buffer, ioLoop write n d iob iob.resid blkno =
        some (d.transferred iob write (4096 * blkno) buffer) ∧
      ∀ j, bufsize ≤ j → buffer j = d.buffer j := by
  intro n
  induction n with
  | zero =>
    intro _ _ _ h
    omega
  | succ n ih =>
    intro d iob blkno hn hr hin
    by_cases h0 : iob.resid = 0
    · refine ⟨d.buffer, ?_, fun _ _ => rfl⟩
      rw [ioLoop, if_pos h0, transferred_zero h0]
    · obtain ⟨k, hk0, hk4, hmin, hdvd⟩ := chunk hr h0
      obtain ⟨b, hround, hb⟩ := round (n := n) write hk0 hk4 hmin hin
      have hk : 4096 * k ≤ iob.resid := hmin ▸ Nat.min_le_left _ _
      have hsize : (d.behind iob write (4096 * blkno) (4096 * k) b).1.size = d.size ∧
          (d.behind iob write (4096 * blkno) (4096 * k) b).1.buffer = b := by
        unfold behind transferred
        split <;> exact ⟨rfl, rfl⟩
      obtain ⟨buffer, hloop, hout⟩ := ih (d.behind iob write (4096 * blkno) (4096 * k) b).1
        (d.behind iob write (4096 * blkno) (4096 * k) b).2 (blkno + k)
        (show iob.resid - 4096 * k < n by omega) hdvd
        (by
          rw [hsize.1]
          change 4096 * (blkno + k) + (iob.resid - 4096 * k) ≤ 512 * d.size
          omega)
      refine ⟨buffer, hround.trans (hloop.trans ?_), fun j hj => ?_⟩
      · rw [Nat.mul_add, transferred_behind hk]
      · rw [hout j hj, hsize.2, hb j hj]

/-! ## Requests -/

theorem io_unaligned (h : ¬iob.Aligned) (write : Bool) :
    d.io iob write = some (some .inval, d, iob) := by
  refine if_pos ?_
  by_contra hall
  obtain ⟨h1, h2⟩ := not_or.1 hall
  exact h ⟨Int.dvd_of_tmod_eq_zero (not_not.1 h1), Nat.dvd_of_mod_eq_zero (not_not.1 h2)⟩

/-- A request of whole blocks is refused by the test of the block numbers. -/
theorem io_aligned (h : iob.Aligned) (write : Bool) : d.io iob write =
    if d.blocks < (Disk0.blkno iob + Disk0.nblks iob) % 2 ^ 32 then some (some .inval, d, iob)
    else if Disk0.nblks iob = 0 then some (none, d, iob)
    else (ioLoop write (iob.resid + 1) d iob iob.resid (Disk0.blkno iob)).map fun r =>
      (none, r) := by
  refine if_neg fun hor => hor.elim (fun h1 => h1 ?_) fun h2 => h2 ?_
  · exact Int.tmod_eq_zero_of_dvd h.1
  · exact Nat.mod_eq_zero_of_dvd h.2

theorem blkno_eq (h : iob.Aligned) (hin : d.Inside iob) :
    4096 * Disk0.blkno iob = iob.offset.toNat ∧ 4096 * Disk0.nblks iob = iob.resid ∧
      Disk0.blkno iob + Disk0.nblks iob ≤ d.blocks := by
  obtain ⟨⟨a, ha⟩, b, hb⟩ := h
  obtain ⟨h0, hle⟩ := hin
  have hsize := d.size_lt
  have hblocks : d.blocks = d.size / 8 := rfl
  have hdiv : iob.offset.tdiv 4096 = a := by
    rw [ha]
    exact Int.mul_tdiv_cancel_left a (by decide)
  have hblkno : Disk0.blkno iob = a.toNat := by
    rw [Disk0.blkno, hdiv, Int.emod_eq_of_lt (by omega) (by omega)]
  have hnblks : Disk0.nblks iob = b := by
    rw [Disk0.nblks, hb, Nat.mul_div_cancel_left b (by decide), Nat.mod_eq_of_lt (by omega)]
  rw [hblkno, hnblks]
  omega

/-- A request within the device is one copy. -/
theorem io_inside (h : iob.Aligned) (hin : d.Inside iob) (write : Bool) :
    ∃ buffer, d.io iob write =
        some (none, d.transferred iob write iob.offset.toNat buffer) ∧
      ∀ j, bufsize ≤ j → buffer j = d.buffer j := by
  obtain ⟨hblkno, hnblks, hle⟩ := blkno_eq h hin
  have hsize := d.size_lt
  have hblocks : d.blocks = d.size / 8 := rfl
  obtain ⟨buffer, hloop, hout⟩ := ioLoop_eq write (iob.resid + 1) d iob (Disk0.blkno iob)
    (Nat.lt_succ_self _) h.2 (by omega)
  rw [io_aligned h, Nat.mod_eq_of_lt (by omega), if_neg (by omega)]
  by_cases h0 : Disk0.nblks iob = 0
  · refine ⟨d.buffer, ?_, fun _ _ => rfl⟩
    rw [if_pos h0, transferred_zero (by omega)]
  · refine ⟨buffer, ?_, hout⟩
    rw [if_neg h0, hloop, hblkno]
    rfl

/-- What a request is to do: it is one copy, if it is of whole blocks of the device, and is refused
    otherwise. -/
def Serves (d : Disk0) (iob : Iobuf) (write : Bool) : Prop :=
  (iob.Aligned → d.Inside iob → ∃ buffer, d.io iob write =
      some (none, d.transferred iob write iob.offset.toNat buffer) ∧
    ∀ j, bufsize ≤ j → buffer j = d.buffer j) ∧
  (¬(iob.Aligned ∧ d.Inside iob) → d.io iob write = some (some .inval, d, iob))

/-- **Disk I/O.**  A request does what it is to do, unless it is one of whole blocks that are not
all of the device, and the 32-bit sum of their number and that of the first is not greater than
`d_blocks`. -/
theorem io_iff (d : Disk0) (iob : Iobuf) (write : Bool) : d.Serves iob write ↔
    ¬(iob.Aligned ∧ ¬d.Inside iob ∧
      (Disk0.blkno iob + Disk0.nblks iob) % 2 ^ 32 ≤ d.blocks) := by
  constructor
  · rintro ⟨-, hrefuse⟩ ⟨h, hout, hle⟩
    have hio := hrefuse fun h' => hout h'.2
    rw [io_aligned h, if_neg (by omega)] at hio
    split at hio
    · simp at hio
    · obtain ⟨r, -, hr⟩ := Option.map_eq_some_iff.1 hio
      simp at hr
  · refine fun hnot => ⟨fun h hin => io_inside h hin write, fun hno => ?_⟩
    by_cases h : iob.Aligned
    · rw [io_aligned h, if_pos]
      by_contra hle
      exact hnot ⟨h, fun hin => hno ⟨h, hin⟩, by omega⟩
    · exact io_unaligned h write

/-- The last block with a number of 32 bits: with one block, the sum is 0, and the assertion about
    the sectors fails. -/
theorem io_wraps :
    io ⟨8, by decide, fun _ => 0, fun _ => 0⟩
      ⟨fun _ => 0, 0, (2 ^ 32 - 1) * 4096, 4096, 4096⟩ false =
        none ∧
      ¬Serves ⟨8, by decide, fun _ => 0, fun _ => 0⟩
        ⟨fun _ => 0, 0, (2 ^ 32 - 1) * 4096, 4096, 4096⟩ false := by
  have hio : io ⟨8, by decide, fun _ => 0, fun _ => 0⟩
      ⟨fun _ => 0, 0, (2 ^ 32 - 1) * 4096, 4096, 4096⟩ false = none := by rfl
  refine ⟨hio, fun h => ?_⟩
  have hrefuse := h.2 fun h' => absurd h'.2.2 (by decide)
  rw [hio] at hrefuse
  cases hrefuse

end Disk0

end Ucore
