/-
  `kern/process/proc.c`, `kern/mm/vmm.c`: the parts of which `load_icode` builds a process.

  The state is what an `exec` works on: memory, the `mm` that is built (`mm_count` and `pgdir` are
  kept beside it), the registers, the trapframe, and `io`, which is what the program is read from.
  `curMm` says whether `current->mm` is not `NULL`, and `satp` is the page of the page directory in
  use.  `mallocs` counts the requests to `kmalloc`, of which `room` says which ones find room.
-/
import Ucore.Mm.UserSpace
import Ucore.Mm.Vmm

namespace Ucore.Loader

open Pmm Vmm

def ustackTop : ℕ := userTop
def ustackSize : ℕ := 256 * pgSize

def sstatusSpp : BitVec 64 := 0x100#64
def sstatusSpie : BitVec 64 := 0x20#64

structure Trapframe where
  epc : ℕ
  sp : ℕ
  a0 : ℕ
  a1 : ℕ
  status : BitVec 64

structure Load (F : Type) where
  phys : Phys
  mm : Option MmStruct
  mmCount : ℤ
  pgdir : ℕ
  mallocs : ℕ
  curMm : Bool
  satp : ℕ
  sstatus : BitVec 64
  tf : Trapframe
  io : F

abbrev M (F α : Type) : Type := Code (Load F) Errno α

variable {F : Type}

def onPhys {α : Type} (x : Pmm.M α) : M F α :=
  Code.on Load.phys (fun s phys => { s with phys := phys }) x

def onMm {α : Type} (x : Vmm.M α) : M F α :=
  Code.on Load.mm (fun s mm => { s with mm := mm }) x

section
variable (A : Allocator) (room : ℕ → Bool) (boot : ℕ)

def kmalloc : M F Bool := do
  let s ← Code.get
  Code.modify fun s => { s with mallocs := s.mallocs + 1 }
  pure (room s.mallocs)

/-- `mm_create` -/
def createMm : M F Bool := do
  if ← kmalloc room then do
    Code.modify fun s => { s with mm := some mmCreate, mmCount := 0 }
    pure true
  else pure false

/-- `setup_pgdir`; `boot` is the page of `boot_pgdir_va`. -/
def setupPgdir : M F Unit := do
  match ← onPhys (allocPages A 1) with
  | none => Code.throw .noMem
  | some page => do
    onPhys (kaddr page)
    Code.modify fun s => { s with phys := s.phys.setPage page (s.phys.word boot), pgdir := page }

/-- `mm_map`, with the request of `vma_create`. -/
def mapArea (addr len : ℕ) (vmFlags : BitVec 32) : M F Unit := do
  let s ← Code.get
  let _ ← onMm (mmMap (room s.mallocs) addr len vmFlags)
  Code.modify fun s => { s with mallocs := s.mallocs + 1 }

/-- `pgdir_alloc_page` for `mm->pgdir`. -/
def allocPage (la : ℕ) (perm : BitVec 32) : M F (Option ℕ) := do
  let s ← Code.get
  onPhys (pgdirAllocPage A s.pgdir la perm)

/-- `memcpy(page2kva(page) + off, src, len)`, which may not go beyond the page. -/
def memcpy (page off : ℕ) (src : Bytes) (len : ℕ) : M F Unit := do
  onPhys (kaddr page)
  Code.assert (off + len ≤ pgSize)
  Code.modify fun s => { s with phys := s.phys.store page off src len }

/-- `memset(page2kva(page) + off, c, len)` -/
def memset (page off : ℕ) (c : UInt8) (len : ℕ) : M F Unit := memcpy page off (fun _ => c) len

/-- Makes `mm` the one of the current process: `mm_count_inc`, `lsatp`. -/
def install : M F Unit :=
  Code.modify fun s => { s with mmCount := s.mmCount + 1, curMm := true, satp := s.pgdir }

/-! ## Cleaning up -/

def unmapAreas : List VmaStruct → M F Unit
  | [] => pure ()
  | vma :: l => do
    let s ← Code.get
    onPhys (unmapRange A s.pgdir vma.vmStart vma.vmEnd)
    unmapAreas l

def exitAreas : List VmaStruct → M F Unit
  | [] => pure ()
  | vma :: l => do
    let s ← Code.get
    onPhys (exitRange s.pgdir vma.vmStart vma.vmEnd)
    exitAreas l

def exitMmap : M F Unit := do
  let s ← Code.get
  Code.assert (s.mm ≠ none ∧ s.mmCount = 0)
  let mm ← onMm deref
  unmapAreas A mm.mmapList
  exitAreas mm.mmapList

def putPgdir : M F Unit := do
  let s ← Code.get
  onPhys (freePages s.pgdir 1)

def mmDestroy : M F Unit := do
  let s ← Code.get
  Code.assert (s.mmCount = 0)
  Code.modify fun s => { s with mm := none }

/-- `bad_pgdir` -/
def badPgdir {α : Type} (e : Errno) : M F α := do
  mmDestroy
  Code.throw e

/-- `bad_elf` -/
def badElf {α : Type} (e : Errno) : M F α := do
  putPgdir
  badPgdir e

/-- `bad_mmap` -/
def badMmap {α : Type} (e : Errno) : M F α := do
  exitMmap A
  badElf e

end

variable {A : Allocator} {st : Load F} {p off len la : ℕ} {src : Bytes}
    {perm : BitVec 32} {t : Phys}
  {o : Option ℕ}

theorem memcpy_run (hp : p < st.phys.npage) (hoff : off + len ≤ pgSize) :
    memcpy p off src len st = some (.ok (), { st with phys := st.phys.store p off src len }) := by
  have hk : onPhys (kaddr p) st = some (.ok (), st) := Code.on_run (kaddr_run hp)
  unfold memcpy
  rw [Code.bind_ok hk, Code.assert_bind hoff]
  rfl

theorem allocPage_run (h : pgdirAllocPage A st.pgdir la perm st.phys = some (.ok o, t)) :
    allocPage A la perm st = some (.ok o, { st with phys := t }) := by
  unfold allocPage
  rw [Code.bind_ok (rfl : (Code.get : M F _) st = _)]
  exact Code.on_run h

end Ucore.Loader
