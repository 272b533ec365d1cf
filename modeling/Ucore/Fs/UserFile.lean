/-
  `file_read`, `file_write` and `file_testfd` of `kern/fs/file.c` on a file of a mounted sfs, and
  `copy_to_user` and `copy_from_user` of `vmm.c`: a process with its memory and its files.

  The memory of the process is given by its addresses.  `vop_read` and `vop_write` are `sfs_io`.

  * `ioNolock_reads`: what a chunk of a read delivers, on any device;
  * `fileRead_run`, `fileWrite_run`: the position goes as far as `sfs_io` gets;
  * `copyToUser_run`, `copyFromUser_run`: a copy is made exactly if each byte is accessible.
-/
import Ucore.Fs.Listing
import Ucore.Mm.UserMem

namespace Ucore

/-! ## Files -/

/-- The position of a descriptor that is still open. -/
def FileTable.fileAdvance {V : Type} (fd copied : ℕ) : FileCode V Unit := do
  let t ← Code.get
  if (t.fdArray fd).status = .opened then
    setFile fd { t.fdArray fd with pos := (t.fdArray fd).pos + copied }

namespace FileSys

section
variable (dev : Device)

/-- `file_read`, and `file_write` if `write`. -/
def fileIo (write : Bool) (fd : ℕ) (base : Bytes) (len : ℕ) : Code FileSys Errno IoResult := do
  match ← Code.attempt (onFiles (FileTable.fd2file fd)) with
  | .error ret => pure ⟨some ret, 0, base⟩
  | .ok file =>
    if (if write then file.writable else file.readable) = false then pure ⟨some .inval, 0, base⟩
    else do
      onFiles (FileTable.fdArrayAcquire fd)
      match file.node with
      | none => Code.panic
      | some node => do
        let out ← onFs (ioNolock dev node base file.pos len write)
        onFiles (FileTable.fileAdvance fd out.alen)
        onFiles (FileTable.fdArrayRelease fd)
        pure out

def fileRead : ℕ → Bytes → ℕ → Code FileSys Errno IoResult := fileIo dev false

def fileWrite : ℕ → Bytes → ℕ → Code FileSys Errno IoResult := fileIo dev true

end

def fileTestfd (fd : ℕ) (readable writable : Bool) : Code FileSys Errno Bool := do
  match ← Code.attempt (onFiles (FileTable.fd2file fd)) with
  | .error _ => pure false
  | .ok file =>
    if readable = true ∧ file.readable = false then pure false
    else if writable = true ∧ file.writable = false then pure false
    else pure true

end FileSys

/-! ## The memory of the process -/

/-- A process: `current->mm`, its memory, and its files. -/
structure UserSys where
  sys : FileSys
  mm : Option Vmm.MmStruct
  mem : Bytes

namespace UserSys

def onSys {α : Type} (x : Code FileSys Errno α) : Code UserSys Errno α :=
  Code.on UserSys.sys (fun s sys => { s with sys := sys }) x

def userMemCheck (addr len : ℕ) (write : Bool) : Code UserSys Errno Bool :=
  Code.on UserSys.mm (fun s mm => { s with mm := mm }) (Vmm.userMemCheck addr len write)

def copyToUser (dst : ℕ) (src : Bytes) (len : ℕ) : Code UserSys Errno Bool := do
  if ← userMemCheck dst len true then do
    Code.modify fun s => { s with mem := s.mem.copy dst src len }
    pure true
  else pure false

/-- `copy_from_user` for reading, to `dst`. -/
def copyFromUser (dst : Bytes) (src len : ℕ) : Code UserSys Errno (Option Bytes) := do
  if ← userMemCheck src len false then do
    let s ← Code.get
    pure (some (dst.copy 0 (s.mem.from' src) len))
  else pure none

end UserSys

variable {dev : Device} {I : Finset ℕ} {E : Set ℕ} {s t : Sfs} {i k n fd ino len : ℕ} {buf : Bytes}

/-! ## A chunk of a read -/

/-- A regular file in memory that has its blocks, as far as its size goes. -/
structure ReadableFile (s : Sfs) (i : ℕ) : Prop where
  cached : s.cached i = true
  type : (s.din i).type = sfsTypeFile
  cap : (s.din i).blocks ≤ 1036
  size : (s.din i).size ≤ (s.din i).blocks * 4096
  whole : WholeFile s i

theorem ReadableFile.wait (h : ReadableFile s i) (n : ℕ) : ReadableFile (s.wait n) i :=
  ⟨h.cached, h.type, h.cap, h.size, h.whole⟩

/-- How many bytes of file `i` there are from a position on, of `len`. -/
def Sfs.avail (s : Sfs) (i : ℕ) (pos : ℤ) (len : ℕ) : ℕ :=
  if 0 ≤ pos then min len ((s.din i).size - pos.toNat) else 0

/-- Byte `q` behind a position of file `i`. -/
def Sfs.bytesAt (s : Sfs) (i : ℕ) (pos : ℤ) : Bytes := fun q => s.byte i (pos.toNat + q)

/-- What a chunk of a read gives: bytes of the file from the position on, all that there are if no
    request fails. -/
structure ReadChunk (dev : Device) (s : Sfs) (i : ℕ) (pos : ℤ) (len : ℕ) (out : IoResult) :
    Prop where
  le : out.alen ≤ s.avail i pos len
  all : out.ret = none → out.alen = s.avail i pos len
  error : ∀ e, out.ret = some e → dev.Faulty ∨ s.avail i pos len = 0
  bytes : ∀ q < out.alen, out.buf q = s.bytesAt i pos q

theorem ReadChunk.none (dev : Device) {pos : ℤ} (h0 : s.avail i pos len = 0) (ret : Option Errno)
    (buf : Bytes) : ReadChunk dev s i pos len ⟨ret, 0, buf⟩ :=
  ⟨Nat.zero_le _, fun _ => h0.symm, fun _ _ => .inr h0, fun q hq => absurd hq (Nat.not_lt_zero q)⟩

theorem Delivered.chunk {offset : ℕ} {out : IoResult}
    (h : Delivered dev s i offset (min (offset + len) (s.din i).size) 0 buf out) :
    ReadChunk dev s i offset len out := by
  have havail : s.avail i offset len = min (offset + len) (s.din i).size - offset := by
    rw [Sfs.avail, if_pos (Int.natCast_nonneg _), Int.toNat_natCast]
    omega
  refine ⟨?_, fun hr => ?_, fun e hr => .inl (h.error e hr), fun q hq => ?_⟩
  · rw [havail]
    exact h.stop.trans_eq (Nat.zero_add _)
  · rw [h.all hr, havail, Nat.zero_add]
  · rw [h.bytes, if_pos ⟨Nat.zero_le q, hq⟩, Nat.sub_zero]
    rfl

/-- **A chunk of a read**, on any device and from any position. -/
theorem ioNolock_reads (dev : Device) (h : Acct I E s) (hf : ReadableFile s i) (pos : ℤ)
    (hlen : len ≤ 4096) (buf : Bytes) :
    ∃ n out, ioNolock dev i buf pos len false s = some (.ok out, s.wait n) ∧
      ReadChunk dev s i pos len out := by
  have hmax : sfsMaxFileSize = 134217728 := by decide
  have hsize := hf.size
  have hcap := hf.cap
  have htype : (s.din i).type ≠ sfsTypeDir := by
    rw [hf.type]
    decide
  rw [ioNolock, Code.bind_ok (rfl : (Code.get : K Sfs) s = _), Code.assert_bind htype]
  dsimp only
  by_cases hout : pos < 0 ∨ (sfsMaxFileSize : ℤ) ≤ pos
  · rw [if_pos (hout.imp_right .inl)]
    refine ⟨0, _, rfl, .none dev ?_ _ _⟩
    rw [Sfs.avail]
    split
    · omega
    · rfl
  · obtain ⟨offset, rfl⟩ : ∃ offset : ℕ, pos = offset := ⟨pos.toNat, by omega⟩
    rw [bmod_endpos (by omega), if_neg (by omega)]
    have havail : s.avail i offset len = min (offset + len) (s.din i).size - offset := by
      rw [Sfs.avail, if_pos (Int.natCast_nonneg _), Int.toNat_natCast]
      omega
    obtain rfl | hpos := Nat.eq_zero_or_pos len
    · rw [if_pos (by omega)]
      exact ⟨0, _, rfl, .none dev (by omega) _ _⟩
    · rw [if_neg (by omega), if_pos rfl]
      by_cases hend : (s.din i).size ≤ offset
      · rw [if_pos (by omega)]
        exact ⟨0, _, rfl, .none dev (by omega) _ _⟩
      · have hend' : (if ((s.din i).size : ℤ) < (if (sfsMaxFileSize : ℤ) < ((offset + len : ℕ) : ℤ)
            then (sfsMaxFileSize : ℤ) else ((offset + len : ℕ) : ℤ)) then ((s.din i).size : ℤ)
            else (if (sfsMaxFileSize : ℤ) < ((offset + len : ℕ) : ℤ)
              then (sfsMaxFileSize : ℤ) else ((offset + len : ℕ) : ℤ))).toNat =
              min (offset + len) (s.din i).size := by
          split <;> split <;> omega
        rw [if_neg (by omega), hend', Int.toNat_natCast]
        obtain ⟨n, out, hrun, hd⟩ : ∃ n out, ioLoop dev i false
            (ioPieces offset (min (offset + len) (s.din i).size)) buf 0 s =
              some (.ok out, s.wait n) ∧ _ :=
          ioLoop_reads (ioPieces_tiles (by omega)) (by omega) (by omega) h hf.whole hf.cached
        exact ⟨n, out, hrun, hd.chunk⟩

/-! ## `file_read` and `file_write` -/

theorem FileTable.Open.advance_run {V : Type} {t : FileTable V} {node : V} (h : t.Open fd node)
    (copied : ℕ) : FileTable.fileAdvance fd copied (t.held fd (t.fdArray fd).pos) =
      some (.ok (), t.held fd ((t.fdArray fd).pos + copied)) := by
  have hst : ((t.held fd (t.fdArray fd).pos).fdArray fd).status = .opened := by
    simpa [held] using h.status
  unfold fileAdvance
  rw [Code.bind_ok (rfl : (Code.get : FileCode V _) _ = _), if_pos hst]
  simp [setFile, Code.modify, held]

/-- **`file_read` and `file_write`** do what `sfs_io` does, and go on as far as it gets. -/
theorem fileIo_run {s : FileSys} {write : Bool} {base : Bytes} {out : IoResult} {fs : Sfs}
    (ho : s.files.Open fd ino)
    (hmode :
      (if write then (s.files.fdArray fd).writable else (s.files.fdArray fd).readable) = true)
    (hio : ioNolock dev ino base (s.files.fdArray fd).pos len write s.fs = some (.ok out, fs)) :
    FileSys.fileIo dev write fd base len s =
      some (.ok out, ⟨s.files.posed fd ((s.files.fdArray fd).pos + out.alen), fs⟩) := by
  obtain ⟨u, hu⟩ :
      ∃ u : FileSys, u = { s with files := s.files.held fd (s.files.fdArray fd).pos } :=
    ⟨_, rfl⟩
  have hfile : FileSys.onFiles (FileTable.fd2file fd) s = some (.ok (s.files.fdArray fd), s) :=
    Code.on_run ho.fd2file_run
  have hacq : FileSys.onFiles (FileTable.fdArrayAcquire fd) s = some (.ok (), u) :=
    hu ▸ Code.on_run ho.acquire_run
  have hrun : FileSys.onFs (ioNolock dev ino base (s.files.fdArray fd).pos len write) u =
      some (.ok out, { u with fs := fs }) := hu ▸ Code.on_run hio
  obtain ⟨v, hv⟩ : ∃ v : FileSys, v =
      { s with
        files := s.files.held fd ((s.files.fdArray fd).pos + out.alen)
        fs := fs } := ⟨_, rfl⟩
  have hadv : FileSys.onFiles (FileTable.fileAdvance fd out.alen) { u with fs := fs } =
      some (.ok (), v) := by
    rw [hu, hv]
    exact Code.on_run (ho.advance_run out.alen)
  have hrel : FileSys.onFiles (FileTable.fdArrayRelease fd) v =
      some (.ok (), ⟨s.files.posed fd ((s.files.fdArray fd).pos + out.alen), fs⟩) :=
    hv ▸ Code.on_run (ho.release_run _)
  unfold FileSys.fileIo
  rw [Code.attempt_bind hfile]
  dsimp only
  rw [if_neg (by rw [hmode]; decide), Code.bind_ok hacq, ho.node]
  exact (Code.bind_ok hrun).trans ((Code.bind_ok hadv).trans (Code.bind_ok hrel))

/-! ## Copies -/

/-- The process may access the byte. -/
def UserByte (mm : Vmm.MmStruct) (write : Bool) (b : ℕ) : Prop :=
  (Pmm.userBase ≤ b ∧ b < Pmm.userTop) ∧ Vmm.Accessible mm write b

instance (mm : Vmm.MmStruct) (write : Bool) (b : ℕ) : Decidable (UserByte mm write b) :=
  inferInstanceAs (Decidable (_ ∧ _))

variable {mm mm' : Vmm.MmStruct} {write : Bool} {addr : ℕ}

theorem UserByte.congr (h : mm'.mmapList = mm.mmapList) {b : ℕ} :
    UserByte mm' write b ↔ UserByte mm write b := by
  rw [UserByte, Vmm.Accessible.congr h, UserByte]

/-- Another `mm_struct` with the same areas, which differs in the cache. -/
def SameAreas (mm : Vmm.MmStruct) (o : Option Vmm.MmStruct) : Prop :=
  ∃ mm', o = some mm' ∧ mm'.Ordered ∧ mm'.mmapList = mm.mmapList

namespace UserSys

variable {s : UserSys}

theorem userMemCheck_run (write : Bool) (hmm : s.mm = some mm) (h : mm.Ordered)
    (ha : addr < 2 ^ 64) (hl : len < 2 ^ 64) (hpos : 0 < len) :
    ∃ r o, userMemCheck addr len write s = some (.ok r, { s with mm := o }) ∧ SameAreas mm o ∧
      (r = true ↔ ∀ q < len, UserByte mm write (addr + q)) := by
  obtain ⟨r, mm', hrun, ho, hlist, hr⟩ := Vmm.userMemCheck_run (w := write) h ha hl hpos
  refine ⟨r, some mm', ?_, ⟨mm', rfl, ho, hlist⟩, hr.trans ⟨fun ⟨⟨h1, h2⟩, h3⟩ q hq => ?_,
    fun hall => ?_⟩⟩
  · exact Code.on_run (hmm ▸ hrun)
  · exact ⟨⟨by omega, by omega⟩, h3 _ (Nat.le_add_right _ _) (by omega)⟩
  · have hfirst := (hall 0 hpos).1
    have hlast := (hall (len - 1) (by omega)).1
    refine ⟨⟨hfirst.1, by omega⟩, fun b hb hb' => ?_⟩
    have := (hall (b - addr) (by omega)).2
    rwa [Nat.add_sub_cancel' hb] at this

/-- **`copy_to_user`** copies exactly if each byte may be written. -/
theorem copyToUser_run (hmm : s.mm = some mm) (h : mm.Ordered) (ha : addr < 2 ^ 64)
    (hl : len < 2 ^ 64) (hpos : 0 < len) (src : Bytes) :
    ∃ r o, copyToUser addr src len s = some (.ok r,
        { s with mm := o, mem := if r = true then s.mem.copy addr src len else s.mem }) ∧
      SameAreas mm o ∧ (r = true ↔ ∀ q < len, UserByte mm true (addr + q)) := by
  obtain ⟨r, o, hrun, ho, hr⟩ := userMemCheck_run true hmm h ha hl hpos
  refine ⟨r, o, ?_, ho, hr⟩
  unfold copyToUser
  rw [Code.bind_ok hrun]
  cases r <;> rfl

/-- **`copy_from_user`** copies exactly if each byte may be read. -/
theorem copyFromUser_run (hmm : s.mm = some mm) (h : mm.Ordered) (ha : addr < 2 ^ 64)
    (hl : len < 2 ^ 64) (hpos : 0 < len) (dst : Bytes) :
    ∃ r o, copyFromUser dst addr len s = some (.ok (if r = true then
        some (dst.copy 0 (s.mem.from' addr) len) else none), { s with mm := o }) ∧
      SameAreas mm o ∧ (r = true ↔ ∀ q < len, UserByte mm false (addr + q)) := by
  obtain ⟨r, o, hrun, ho, hr⟩ := userMemCheck_run false hmm h ha hl hpos
  refine ⟨r, o, ?_, ho, hr⟩
  unfold copyFromUser
  rw [Code.bind_ok hrun]
  cases r <;> rfl

end UserSys

end Ucore
