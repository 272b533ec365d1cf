/-
  `kern/process/proc.c` of lab5: `load_icode`, which reads a program from kernel memory.

  A program is its bytes from `binary` on.  The parts that lab8 has as well are in `Process/Load`.
-/
import Ucore.Process.Elf
import Ucore.Process.Load

namespace Ucore.Loader.Lab5

open Pmm Vmm

/-- The variables of the loops. -/
structure Cut where
  start : ℕ
  la : ℕ
  from_ : ℕ
  page : ℕ

section
variable (A : Allocator) (room : ℕ → Bool) (boot : ℕ) (binary : Bytes)

/-- The bytes of `[start, end)` that are in the page before `la`. -/
def pieceSize (end_ off la : ℕ) : ℕ :=
  let size := pgSize - off
  if end_ < la then size - (la - end_) else size

/-- `while (start < end)` over the bytes of the file. -/
def copyLoop (perm : BitVec 32) (end_ : ℕ) : ℕ → Cut → M Unit Cut
  | 0, _ => Code.panic
  | n + 1, c =>
    if c.start < end_ then do
      match ← allocPage A c.la perm with
      | none => Code.throw .noMem
      | some page => do
        let off := c.start - c.la
        let la := c.la + pgSize
        let size := pieceSize end_ off la
        memcpy page off (binary.from' c.from_) size
        copyLoop perm end_ n ⟨c.start + size, la, c.from_ + size, page⟩
    else pure c

/-- `while (start < end)` over the bytes behind the file. -/
def bssLoop (perm : BitVec 32) (end_ : ℕ) : ℕ → Cut → M Unit Unit
  | 0, _ => Code.panic
  | n + 1, c =>
    if c.start < end_ then do
      match ← allocPage A c.la perm with
      | none => Code.throw .noMem
      | some page => do
        let off := c.start - c.la
        let la := c.la + pgSize
        let size := pieceSize end_ off la
        memset page off 0 size
        bssLoop perm end_ n { c with start := c.start + size, la := la, page := page }
    else pure ()

/-- The part behind the file of a segment. -/
def loadBss (perm : BitVec 32) (end_ : ℕ) (c : Cut) : M Unit Unit :=
  if c.start < c.la then
    if c.start = end_ then pure ()
    else do
      let off := c.start + pgSize - c.la
      let size := pieceSize end_ off c.la
      memset c.page off 0 size
      let start := c.start + size
      Code.assert ((end_ < c.la ∧ start = end_) ∨ (c.la ≤ end_ ∧ start = c.la))
      bssLoop A perm end_ (pages start end_ + 2) { c with start := start }
  else bssLoop A perm end_ (pages c.start end_ + 2) c

def loadSegment (ph : Proghdr) : M Unit Unit :=
  if ph.pType ≠ elfPtLoad then pure ()
  else if ph.pMemsz < ph.pFilesz then Code.throw .invalElf
  else do
    let vmFlags := segFlags ph.pFlags
    let perm := segPerm vmFlags
    mapArea room ph.pVa ph.pMemsz vmFlags
    let end_ := (ph.pVa + ph.pFilesz) % 2 ^ 64
    let c ← copyLoop A binary perm end_ (pages ph.pVa end_ + 2)
      ⟨ph.pVa, roundDown ph.pVa pgSize, ph.pOffset, 0⟩
    loadBss A perm ((ph.pVa + ph.pMemsz) % 2 ^ 64) c

/-- `for (; ph < ph_end; ph++)` -/
def loadSegments : ℕ → ℕ → M Unit Unit
  | 0, _ => pure ()
  | n + 1, ph => do
    loadSegment A room binary (Proghdr.ofBytes (binary.from' ph))
    loadSegments n (ph + sizeofProghdr)

/-- `assert(pgdir_alloc_page(mm->pgdir, USTACKTOP - n * PGSIZE, PTE_USER) != NULL)` -/
def allocStack (n : ℕ) : M Unit Unit := do
  match ← allocPage A (ustackTop - n * pgSize) (pteUser.setWidth 32) with
  | none => Code.panic
  | some _ => pure ()

def loadIcode : M Unit Unit := do
  let s ← Code.get
  Code.assert (s.curMm = false)
  if ← createMm room then
    match ← Code.attempt (setupPgdir A boot) with
    | .error _ => badPgdir .noMem
    | .ok () => do
      let elf := Elfhdr.ofBytes binary
      if elf.eMagic ≠ elfMagic then badElf .invalElf
      else
        match ← Code.attempt (do
            loadSegments A room binary elf.ePhnum elf.ePhoff
            mapArea room (ustackTop - ustackSize) ustackSize (vmRead ||| vmWrite ||| vmStack)) with
        | .error e => badMmap A e
        | .ok () => do
          allocStack A 1
          allocStack A 2
          allocStack A 3
          allocStack A 4
          install
          Code.modify fun s => { s with tf :=
            { epc := elf.eEntry, sp := ustackTop, a0 := 0, a1 := 0
              status := (s.tf.status &&& ~~~sstatusSpp) ||| sstatusSpie } }
  else Code.throw .noMem

end

end Ucore.Loader.Lab5
