/-
  `kern/mm/vmm.c`: the virtual memory areas of a process, and what the kernel may access for it.

  An `mm` is a pointer, and the state is what it points to, with `none` for `NULL`.  Addresses are
  numbers below `2 ^ 64`.
-/
import Ucore.Mm.Pmm

namespace Ucore.Vmm

open Pmm (UserAccess userBase userTop)

/-- `ROUNDUP` -/
def roundUp (a n : ℕ) : ℕ := roundDown ((a + n - 1) % 2 ^ 64) n

def kernBase : ℕ := 0xFFFFFFFFC0200000
def kernTop : ℕ := kernBase + 0x7E00000

/-- `KERN_ACCESS` -/
def KernAccess (start end_ : ℕ) : Prop := kernBase ≤ start ∧ start < end_ ∧ end_ ≤ kernTop

instance (start end_ : ℕ) : Decidable (KernAccess start end_) :=
  inferInstanceAs (Decidable (_ ∧ _ ∧ _))

/-! ## Structures -/

def vmRead : BitVec 32 := 0x1#32
def vmWrite : BitVec 32 := 0x2#32
def vmExec : BitVec 32 := 0x4#32
def vmStack : BitVec 32 := 0x8#32

structure VmaStruct where
  vmStart : ℕ
  vmEnd : ℕ
  vmFlags : BitVec 32
  deriving DecidableEq

/-- The address belongs to the area. -/
def VmaStruct.Has (vma : VmaStruct) (addr : ℕ) : Prop := vma.vmStart ≤ addr ∧ addr < vma.vmEnd

instance (vma : VmaStruct) (addr : ℕ) : Decidable (vma.Has addr) :=
  inferInstanceAs (Decidable (_ ∧ _))

structure MmStruct where
  mmapList : List VmaStruct
  mmapCache : Option VmaStruct
  mapCount : ℤ
  deriving DecidableEq

def mmCreate : MmStruct := ⟨[], none, 0⟩

abbrev M (α : Type) : Type := Code (Option MmStruct) Errno α

/-- `*mm` -/
def deref : M MmStruct := do
  match ← Code.get with
  | none => Code.panic
  | some mm => pure mm

/-! ## Areas -/

/-- `vma_create`; `room` says whether `kmalloc` finds room. -/
def vmaCreate (room : Bool) (vmStart vmEnd : ℕ) (vmFlags : BitVec 32) : Option VmaStruct :=
  if room then some ⟨vmStart, vmEnd, vmFlags⟩ else none

/-- The area that `find_vma` finds: the cached one, or the first one of the list. -/
def MmStruct.search (mm : MmStruct) (addr : ℕ) : Option VmaStruct :=
  match mm.mmapCache with
  | some vma => if vma.Has addr then some vma else mm.mmapList.find? (·.Has addr)
  | none => mm.mmapList.find? (·.Has addr)

def findVma (addr : ℕ) : M (Option VmaStruct) := do
  match ← Code.get with
  | none => pure none
  | some mm =>
    match mm.search addr with
    | none => pure none
    | some vma => do
      Code.modify fun _ => some { mm with mmapCache := some vma }
      pure (some vma)

def checkVmaOverlap (prev next : VmaStruct) : M Unit := do
  Code.assert (prev.vmStart < prev.vmEnd)
  Code.assert (prev.vmEnd ≤ next.vmStart)
  Code.assert (next.vmStart < next.vmEnd)

/-- The check against a neighbour, if there is one. -/
def checkPrev (vma : VmaStruct) : Option VmaStruct → M Unit
  | none => pure ()
  | some prev => checkVmaOverlap prev vma

def checkNext (vma : VmaStruct) : Option VmaStruct → M Unit
  | none => pure ()
  | some next => checkVmaOverlap vma next

/-- The areas up to `le_prev`. -/
def MmStruct.upTo (mm : MmStruct) (vma : VmaStruct) : List VmaStruct :=
  mm.mmapList.takeWhile fun prev => prev.vmStart ≤ vma.vmStart

/-- The areas from `le_next` on. -/
def MmStruct.after (mm : MmStruct) (vma : VmaStruct) : List VmaStruct :=
  mm.mmapList.dropWhile fun prev => prev.vmStart ≤ vma.vmStart

def insertVmaStruct (vma : VmaStruct) : M Unit := do
  Code.assert (vma.vmStart < vma.vmEnd)
  let mm ← deref
  checkPrev vma (mm.upTo vma).getLast?
  checkNext vma (mm.after vma).head?
  Code.modify fun _ => some { mm with
    mmapList := mm.upTo vma ++ vma :: mm.after vma
    mapCount := mm.mapCount + 1 }

/-- `start` and `end` of `mm_map`. -/
def mapStart (addr : ℕ) : ℕ := roundDown addr pgSize
def mapEnd (addr len : ℕ) : ℕ := roundUp ((addr + len) % 2 ^ 64) pgSize

/-- `mm_map` returns the area that it stores in `*vma_store`. -/
def mmMap (room : Bool) (addr len : ℕ) (vmFlags : BitVec 32) : M VmaStruct := do
  if ¬UserAccess (mapStart addr) (mapEnd addr len) then Code.throw .inval
  else do
    let _ ← deref
    let vma ← findVma (mapStart addr)
    if vma.any fun vma => vma.vmStart < mapEnd addr len then Code.throw .inval
    else
      match vmaCreate room (mapStart addr) (mapEnd addr len) vmFlags with
      | none => Code.throw .noMem
      | some vma => do
        insertVmaStruct vma
        pure vma

/-! ## Access -/

/-- The bit of `vm_flags` that an access needs. -/
def accessFlag (write : Bool) : BitVec 32 := if write then vmWrite else vmRead

/-- The loop of `user_mem_check`. -/
def checkLoop (write : Bool) (end_ : ℕ) : ℕ → ℕ → M Bool
  | 0, _ => Code.panic
  | n + 1, start =>
    if start < end_ then do
      match ← findVma start with
      | none => pure false
      | some vma =>
        if start < vma.vmStart then pure false
        else if vma.vmFlags &&& accessFlag write = 0 then pure false
        else if write ∧ vma.vmFlags &&& vmStack ≠ 0 ∧ start < (vma.vmStart + pgSize) % 2 ^ 64 then
          pure false
        else checkLoop write end_ n vma.vmEnd
    else pure true

/-- Each step of the loop goes at least one byte further. -/
def userMemCheck (addr len : ℕ) (write : Bool) : M Bool := do
  let end_ := (addr + len) % 2 ^ 64
  match ← Code.get with
  | some _ =>
    if ¬UserAccess addr end_ then pure false else checkLoop write end_ (len + 1) addr
  | none => pure (decide (KernAccess addr end_))

/-! ## Strings -/

/-- Memory, and the addresses that have been read and written. -/
structure Memory where
  mm : Option MmStruct
  byte : ℕ → BitVec 8
  reads : List ℕ
  writes : List ℕ

namespace Memory

def load (a : ℕ) : Code Memory Errno (BitVec 8) := do
  Code.modify fun s => { s with reads := a :: s.reads }
  let s ← Code.get
  pure (s.byte a)

def store (a : ℕ) (b : BitVec 8) : Code Memory Errno Unit :=
  Code.modify fun s => { s with
    byte := Function.update s.byte a b
    writes := a :: s.writes }

end Memory

/-- How many bytes there are before the first zero, of `len`. -/
def strnlen : ℕ → ℕ → Code Memory Errno ℕ
  | _, 0 => pure 0
  | s, len + 1 => do
    let c ← Memory.load s
    if c ≠ 0 then do
      let cnt ← strnlen (s + 1) len
      pure (cnt + 1)
    else pure 0

def memcpy : ℕ → ℕ → ℕ → Code Memory Errno Unit
  | _, _, 0 => pure ()
  | dst, src, n + 1 => do
    let c ← Memory.load src
    Memory.store dst c
    memcpy (dst + 1) (src + 1) n

def copyLoop : ℕ → ℕ → ℕ → ℕ → ℕ → Code Memory Errno Bool
  | 0, _, _, _, _ => Code.panic
  | n + 1, dst, src, maxn, part => do
    let part := if maxn < part then maxn else part
    let ok ← Code.on Memory.mm (fun s mm => { s with mm := mm }) (userMemCheck src part false)
    if !ok then pure false
    else do
      let alen ← strnlen src part
      if alen < part then do
        memcpy dst src (alen + 1)
        pure true
      else if part = maxn then pure false
      else do
        memcpy dst src part
        copyLoop n (dst + part) (src + part) (maxn - part) pgSize

/-- Each part but the last takes at least one byte of `maxn`. -/
def copyString (dst src maxn : ℕ) : Code Memory Errno Bool :=
  copyLoop (maxn + 1) dst src maxn
    ((roundDown ((src + pgSize) % 2 ^ 64) pgSize + 2 ^ 64 - src) % 2 ^ 64)

end Ucore.Vmm
