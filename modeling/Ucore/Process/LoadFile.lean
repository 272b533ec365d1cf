/-
  `load_icode_read`, with `sysfile_seek`, `sysfile_read` and `file_read`, on a file of a mounted
    sfs.

  Inodes are given by their inode numbers.  What is read goes to a variable on the kernel stack, or
  to a page; `junk` is what a buffer from `kmalloc` holds.

  * `fileRead_spec`, `readLoop_spec`: parts of the file are read one after the other;
  * `loadIcodeRead_spec`: a range of the file is read.
-/
import Ucore.Fs.FileIo
import Ucore.Process.Exec
import Ucore.Process.Load

namespace Ucore.Loader

open Pmm Vmm

/-! ## The code -/

/-- The descriptors of the process, the file system, and the kernel stack by its addresses. -/
structure FileSide where
  files : FileTable ℕ
  fs : Sfs
  stack : Bytes

/-- A place in kernel memory. -/
inductive Dst where
  | stack (addr : ℕ)
  | page (page off : ℕ)

/-- The kernel address of a page; physical memory is mapped at `PHYSICAL_MEMORY_OFFSET`. -/
def kva (page : ℕ) : ℕ := page * pgSize + 0xFFFFFFFF40000000

namespace Dst

def addr : Dst → ℕ
  | .stack a => a
  | .page p off => kva p + off

def add : Dst → ℕ → Dst
  | .stack a, n => .stack (a + n)
  | .page p off, n => .page p (off + n)

end Dst

def ioBufSize : ℕ := 4096

def onFiles {α : Type} (x : FileCode ℕ α) : M FileSide α :=
  Code.on (fun s => s.io.files) (fun s files => { s with io := { s.io with files := files } }) x

def onFs {α : Type} (x : K α) : M FileSide α :=
  Code.on (fun s => s.io.fs) (fun s fs => { s with io := { s.io with fs := fs } }) x

section
variable (dev : Device) (room : ℕ → Bool) (junk : Bytes)

/-- `file_seek` with `LSEEK_SET`, after `fd2file`. -/
def sysfileSeek (fd : ℕ) (pos : ℤ) : M FileSide Unit := do
  let file ← onFiles (FileTable.fd2file fd)
  match file.node with
  | none => Code.panic
  | some ino => do
    let ret ← Code.attempt (onFs (tryseek dev ino pos))
    onFiles (FileTable.fileSeek fd pos ret)

/-- `file_read` into a buffer: what the buffer holds, the bytes copied, and what it returns. -/
def fileRead (fd : ℕ) (buffer : Bytes) (len : ℕ) : M FileSide (Bytes × ℕ × Except Errno Unit) := do
  match ← Code.attempt (onFiles (FileTable.fd2file fd)) with
  | .error e => pure (buffer, 0, .error e)
  | .ok file =>
    if file.readable = false then pure (buffer, 0, .error .inval)
    else
      match file.node with
      | none => Code.panic
      | some ino => do
        let out ← onFs (ioNolock dev ino buffer file.pos len false)
        let ret := match out.ret with
          | none => .ok ()
          | some e => .error e
        let r ← onFiles (FileTable.fileRead fd ⟨out.alen, ret⟩)
        pure (out.buf, r)

def memcpyDst (dst : Dst) (src : Bytes) (len : ℕ) : M FileSide Unit :=
  match dst with
  | .stack a =>
    Code.modify fun s => { s with io := { s.io with stack := s.io.stack.copy a src len } }
  | .page p off => memcpy p off src len

/-- `copy_to_user` for `current->mm`, to kernel memory. -/
def copyToDst (dst : Dst) (src : Bytes) (len : ℕ) : M FileSide Bool := do
  let ok ← Code.on (fun s => if s.curMm then s.mm else none)
    (fun s mm => if s.curMm then { s with mm := mm } else s) (userMemCheck dst.addr len true)
  if ok then do
    memcpyDst dst src len
    pure true
  else pure false

/-- The loop of `sysfile_read`: the bytes copied, and an error. -/
def readLoop (fd : ℕ) : ℕ → Dst → ℕ → ℕ → Bytes → M FileSide (ℕ × Except Errno Unit)
  | 0, _, _, _, _ => Code.panic
  | n + 1, dst, len, copied, buffer =>
    if len = 0 then pure (copied, .ok ())
    else do
      let (buffer, alen, ret) ← fileRead dev fd buffer (min ioBufSize len)
      if alen = 0 then pure (copied, ret)
      else do
        if ← copyToDst dst buffer alen then do
          Code.assert (alen ≤ len)
          match ret with
          | .error e => pure (copied + alen, .error e)
          | .ok () => readLoop fd n (dst.add alen) (len - alen) (copied + alen) buffer
        else
          match ret with
          | .error e => pure (copied, .error e)
          | .ok () => pure (copied, .error .inval)

def fileTestfd (fd : ℕ) : M FileSide Bool := do
  match ← Code.attempt (onFiles (FileTable.fd2file fd)) with
  | .error _ => pure false
  | .ok file => pure file.readable

/-- `sysfile_read`; an error is returned if nothing has been copied. -/
def sysfileRead (fd : ℕ) (dst : Dst) (len : ℕ) : M FileSide ℕ :=
  if len = 0 then pure 0
  else do
    if ← fileTestfd fd then
      if ← kmalloc room then do
        let r ← readLoop dev fd (len + 1) dst len 0 junk
        if r.1 ≠ 0 then pure r.1
        else
          match r.2 with
          | .error e => Code.throw e
          | .ok () => pure 0
      else Code.throw .noMem
    else Code.throw .inval

def loadIcodeRead (fd : ℕ) (dst : Dst) (len : ℕ) (offset : ℤ) : M FileSide Unit := do
  sysfileSeek dev fd offset
  let ret ← sysfileRead dev room junk fd dst len
  if ret ≠ len then Code.throw .unspecified else pure ()

end

/-! ## Reading -/

variable {dev : Device} {room : ℕ → Bool} {junk buffer file : Bytes} {fd ino size offset len : ℕ}
  {io : FileSide} {s : Load FileSide} {dst : Dst}

/-- The descriptor is open for reading on a regular file with these bytes, and no request to the
    device fails. -/
structure OpenFile (dev : Device) (fd ino size : ℕ) (file : Bytes) (io : FileSide) : Prop where
  sound : ¬dev.Faulty
  opened : io.files.Opened fd ino
  regular : RegularFile io.fs ino
  acct : ∃ I E, Acct I E io.fs
  length : (io.fs.din ino).size = size
  cap : size ≤ 1036 * 4096
  bytes : ∀ k < size, io.fs.byte ino k = file k

/-- The position of the descriptor and the time have changed. -/
def FileSide.after (io : FileSide) (fd : ℕ) (pos : ℤ) (n : ℕ) : FileSide :=
  { io with files := io.files.posed fd pos, fs := io.fs.wait n }

namespace OpenFile

theorem after (h : OpenFile dev fd ino size file io) (pos : ℤ) (n : ℕ) :
    OpenFile dev fd ino size file (io.after fd pos n) := by
  obtain ⟨I, E, ha⟩ := h.acct
  exact ⟨h.sound, h.opened.posed pos, ⟨h.regular.cached, h.regular.type, h.regular.blocks,
    h.regular.whole⟩, ⟨I, E, ha.wait n⟩, h.length, h.cap, h.bytes⟩

/-- `vop_read` reads what the file holds. -/
theorem read_run (h : OpenFile dev fd ino size file io) (buffer : Bytes)
    (hle : offset + len ≤ size) : ∃ n buf,
      ioNolock dev ino buffer offset len false io.fs = some (.ok ⟨none, len, buf⟩, io.fs.wait n) ∧
      ∀ j < len, buf j = file (offset + j) := by
  obtain ⟨I, E, ha⟩ := h.acct
  have hsize := h.length
  have hcap := h.cap
  have hmin : min (offset + len) (io.fs.din ino).size - offset = len := by omega
  obtain ⟨n, buf, hrun, hbuf⟩ : ∃ n buf, ioNolock dev ino buffer offset len false io.fs =
      some (.ok ⟨none, min (offset + len) (io.fs.din ino).size - offset, buf⟩, io.fs.wait n) ∧ _ :=
    io_read h.sound ha h.regular (by omega) (by omega)
  rw [hmin] at hrun hbuf
  refine ⟨n, buf, hrun, fun j hj => ?_⟩
  have hget := congrArg (·[j]?) hbuf
  have hj' : offset + j < (io.fs.dinOf ino).size := by
    rw [Acct.dinOf_of_cached h.regular.cached]
    omega
  rw [List.getElem?_map, List.getElem?_range hj, List.getElem?_take_of_lt hj, List.getElem?_drop,
    getElem?_contents hj', Option.map_some, Option.some_inj, h.bytes _ (by omega)] at hget
  exact hget

theorem tryseek_run (h : OpenFile dev fd ino size file io) (hle : offset ≤ size) :
    tryseek dev ino offset io.fs = some (.ok (), io.fs) := by
  have hmax : sfsMaxFileSize = 134217728 := by decide
  have hcap := h.cap
  have hsize := h.length
  unfold tryseek
  rw [if_neg (by rw [hmax]; omega), Code.bind_ok (rfl : (Code.get : K Sfs) _ = _),
    if_neg (by omega)]
  rfl

end OpenFile

theorem sysfileSeek_run (h : OpenFile dev fd ino size file s.io) (hle : offset ≤ size) :
    sysfileSeek dev fd offset s = some (.ok (), { s with io := s.io.after fd offset 0 }) := by
  have hfile : onFiles (FileTable.fd2file fd) s = some (.ok (s.io.files.fdArray fd), s) :=
    Code.on_run h.opened.isOpen.fd2file_run
  have hseek : onFs (tryseek dev ino offset) s = some (.ok (), s) := Code.on_run (h.tryseek_run hle)
  unfold sysfileSeek
  rw [Code.bind_ok hfile]
  simp only [h.opened.node]
  rw [Code.attempt_bind hseek]
  exact Code.on_run (h.opened.isOpen.fileSeek_run offset)

theorem fileRead_run (h : OpenFile dev fd ino size file s.io) (buffer : Bytes)
    (hpos : (s.io.files.fdArray fd).pos = offset) (hle : offset + len ≤ size) :
    ∃ n buf, fileRead dev fd buffer len s =
        some (.ok (buf, len, .ok ()), { s with io := s.io.after fd (offset + len) n }) ∧
      ∀ j < len, buf j = file (offset + j) := by
  obtain ⟨n, buf, hrun, hbuf⟩ := h.read_run buffer hle
  have hfile : onFiles (FileTable.fd2file fd) s = some (.ok (s.io.files.fdArray fd), s) :=
    Code.on_run h.opened.isOpen.fd2file_run
  have hread : onFs (ioNolock dev ino buffer (s.io.files.fdArray fd).pos len false) s =
      some (.ok ⟨none, len, buf⟩, { s with io := { s.io with fs := s.io.fs.wait n } }) := by
    rw [hpos]
    exact Code.on_run hrun
  refine ⟨n, buf, ?_, hbuf⟩
  unfold fileRead
  rw [Code.attempt_bind hfile]
  simp only [h.opened.readable, Bool.true_eq_false, if_false, h.opened.node]
  rw [Code.bind_ok hread]
  have hlast : onFiles (FileTable.fileRead fd ⟨len, .ok ()⟩)
      { s with io := { s.io with fs := s.io.fs.wait n } } =
        some (.ok (len, .ok ()), { s with io := s.io.after fd (offset + len) n }) := by
    rw [← hpos]
    exact Code.on_run h.opened.fileRead_run
  exact Code.bind_ok hlast

/-! ## Copying -/

namespace Dst

/-- What `memcpy` does. -/
def put (dst : Dst) (src : Bytes) (len : ℕ) (s : Load FileSide) : Load FileSide :=
  match dst with
  | .stack a => { s with io := { s.io with stack := s.io.stack.copy a src len } }
  | .page p off => { s with phys := s.phys.store p off src len }

/-- The bytes are in the kernel's part of the address space, and do not go beyond the page. -/
structure Fits (dst : Dst) (s : Load FileSide) (len : ℕ) : Prop where
  access : KernAccess dst.addr (dst.addr + len)
  page : ∀ p off, dst = .page p off → p < s.phys.npage ∧ off + len ≤ pgSize

variable {src src' : Bytes}

theorem put_congr (h : ∀ j < len, src j = src' j) : dst.put src len s = dst.put src' len s := by
  cases dst with
  | stack a =>
    simp only [put]
    rw [Bytes.copy_congr h]
  | page p off =>
    simp only [put, Phys.store]
    rw [Bytes.copy_congr h]

end Dst

theorem copyToDst_run (src : Bytes) (hc : s.curMm = false) (hf : dst.Fits s len) :
    copyToDst dst src len s = some (.ok true, dst.put src len s) := by
  have hsmall : (dst.addr + len) % 2 ^ 64 = dst.addr + len := by
    have := hf.access.2.2
    unfold kernTop kernBase at this
    omega
  have hcheck : userMemCheck dst.addr len true none = some (.ok true, none) := by
    unfold userMemCheck
    rw [Code.bind_ok (rfl : (Code.get : Vmm.M _) none = _), hsmall]
    simp only [hf.access, decide_true]
    rfl
  have hok : Code.on (fun s : Load FileSide => if s.curMm then s.mm else none)
      (fun s mm => if s.curMm then { s with mm := mm } else s)
      (userMemCheck dst.addr len true) s = some (.ok true, s) := by
    refine (Code.on_run (r := .ok true) (u := none) ?_).trans ?_
    · rw [if_neg (by simp [hc]), hcheck]
    · rw [if_neg (by simp [hc])]
  unfold copyToDst
  rw [Code.bind_ok hok, if_pos rfl]
  cases dst with
  | stack a => rfl
  | page p off =>
    obtain ⟨hp, hoff⟩ := hf.page p off rfl
    exact Code.bind_ok (memcpy_run hp hoff)

/-! ## `load_icode_read` -/

variable (h : OpenFile dev fd ino size file s.io) (hc : s.curMm = false) (hle : offset + len ≤ size)
  (hpos : 0 < len) (hlen : len ≤ ioBufSize) (hf : dst.Fits s len)
include h hc hle hpos hlen hf

/-- The loop of `sysfile_read` reads the range at once. -/
theorem readLoop_run {n : ℕ} (hn : 1 < n) (buffer : Bytes)
    (hp : (s.io.files.fdArray fd).pos = offset) :
    ∃ m, readLoop dev fd n dst len 0 buffer s = some (.ok (len, .ok ()),
      dst.put (file.from' offset) len { s with io := s.io.after fd (offset + len) m }) := by
  obtain ⟨m, buf, hrun, hbuf⟩ := fileRead_run h buffer hp hle
  obtain ⟨n, rfl⟩ := Nat.exists_eq_add_of_lt hn
  have hmin : min ioBufSize len = len := Nat.min_eq_right hlen
  have hcopy := copyToDst_run (s := { s with io := s.io.after fd (offset + len) m }) buf hc
    ⟨hf.access, hf.page⟩
  rw [Dst.put_congr hbuf] at hcopy
  refine ⟨m, ?_⟩
  rw [show 1 + n + 1 = (n + 1) + 1 by omega, readLoop, if_neg (by omega), hmin, Code.bind_ok hrun]
  simp only
  rw [if_neg (by omega), Code.bind_ok hcopy, if_pos rfl, Code.assert_bind le_rfl, readLoop,
    if_pos (Nat.sub_self _), Nat.zero_add]
  rfl

/-- **A range of the file is read.** -/
theorem loadIcodeRead_run (hr : ∀ n, room n = true) :
    ∃ io, loadIcodeRead dev room junk fd dst len offset s = some (.ok (),
        dst.put (file.from' offset) len { s with io := io, mallocs := s.mallocs + 1 }) ∧
      OpenFile dev fd ino size file io ∧ io.stack = s.io.stack := by
  have hseek := sysfileSeek_run h (show offset ≤ size by omega)
  have h' := h.after offset 0
  have htest : fileTestfd fd { s with io := s.io.after fd offset 0 } =
      some (.ok true, { s with io := s.io.after fd offset 0 }) := by
    have hfile : onFiles (FileTable.fd2file fd) { s with io := s.io.after fd offset 0 } =
        some (.ok ((s.io.after fd offset 0).files.fdArray fd),
          { s with io := s.io.after fd offset 0 }) :=
      Code.on_run h'.opened.isOpen.fd2file_run
    unfold fileTestfd
    rw [Code.attempt_bind hfile]
    simp only [h'.opened.readable]
    rfl
  have hmalloc : kmalloc room { s with io := s.io.after fd offset 0 } = some (.ok true,
      { s with io := s.io.after fd offset 0, mallocs := s.mallocs + 1 }) := by
    unfold kmalloc
    rw [Code.bind_ok (rfl : (Code.get : M FileSide _) _ = _),
      Code.bind_ok (rfl : Code.modify _ _ = _), hr]
    rfl
  have hp : ((s.io.after fd offset 0).files.fdArray fd).pos = offset := by
    simp [FileSide.after, FileTable.posed]
  obtain ⟨m, hloop⟩ := readLoop_run (s := { s with
    io := s.io.after fd offset 0
    mallocs := s.mallocs + 1 }) h' hc hle hpos hlen ⟨hf.access, hf.page⟩
    (show 1 < len + 1 by omega) junk hp
  refine ⟨_, ?_, h'.after (offset + len) m, rfl⟩
  unfold loadIcodeRead
  rw [Code.bind_ok hseek]
  have hread : sysfileRead dev room junk fd dst len { s with io := s.io.after fd offset 0 } =
      some (.ok len, dst.put (file.from' offset) len { s with
        io := (s.io.after fd offset 0).after fd (offset + len) m
        mallocs := s.mallocs + 1 }) := by
    unfold sysfileRead
    rw [if_neg (by omega), Code.bind_ok htest, if_pos rfl, Code.bind_ok hmalloc, if_pos rfl,
      Code.bind_ok hloop]
    simp only
    rw [if_pos (by omega)]
    rfl
  rw [Code.bind_ok hread, if_neg (by simp)]
  rfl

end Ucore.Loader
