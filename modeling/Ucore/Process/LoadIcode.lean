/-
  `kern/process/proc.c`: `load_icode`, which reads a program from a file, and puts the arguments on
  the stack of the user.

  `StackFrame` are the addresses of the variables of `load_icode` that are read into.  A store to an
  address of a user that is not mapped to be written traps, again and again.
-/
import Ucore.Process.Elf
import Ucore.Process.LoadFile

namespace Ucore.Loader

open Pmm Vmm

def execMaxArgNum : ℕ := 32
def execMaxArgLen : ℕ := 4095

/-- Where `elf` and `ph` are on the kernel stack. -/
structure StackFrame where
  elf : ℕ
  ph : ℕ
  elf_access : KernAccess elf (elf + sizeofElfhdr)
  ph_access : KernAccess ph (ph + sizeofProghdr)
  disjoint : elf + sizeofElfhdr ≤ ph ∨ ph + sizeofProghdr ≤ elf

/-- `strnlen` -/
def strnlen (s : Bytes) : ℕ → ℕ
  | 0 => 0
  | n + 1 => if s 0 = 0 then 0 else strnlen (s.from' 1) n + 1

/-! ## Stores to the user's memory -/

/-- A store of a byte, with the page directory in use. -/
def userStore (va : ℕ) (b : UInt8) : M FileSide Unit := do
  let s ← Code.get
  match s.phys.lookup s.satp va with
  | none => Code.panic
  | some pte =>
    if pte &&& pteW = 0 then Code.panic
    else Code.modify fun s =>
      { s with phys := s.phys.store (ptePage pte) (va % pgSize) (fun _ => b) 1 }

/-- `memcpy` to the user. -/
def memcpyUser (va : ℕ) (src : Bytes) : ℕ → M FileSide Unit
  | 0 => pure ()
  | n + 1 => do
    memcpyUser va src n
    userStore (va + n) (src n)

/-- `copy_to_user` for `mm`; what does not pass is an error. -/
def copyToUser (va : ℕ) (src : Bytes) (len : ℕ) : M FileSide Unit := do
  if ← onMm (userMemCheck va len true) then memcpyUser va src len
  else Code.throw .fault

/-! ## The arguments -/

/-- The length of an argument with its zero. -/
def argSize (arg : Bytes) : ℕ := strnlen arg execMaxArgLen + 1

/-- Where an argument goes that is put below `sp`. -/
def argSp (sp : ℕ) (arg : Bytes) : ℕ := roundDown (sp - argSize arg) 8

/-- The strings, from the last one down; `uargv` are their addresses. -/
def pushStrings (kargv : ℕ → Bytes) : ℕ → ℕ → (ℕ → ℕ) → M FileSide (ℕ × (ℕ → ℕ))
  | 0, sp, uargv => pure (sp, uargv)
  | i + 1, sp, uargv => do
    let sp := argSp sp (kargv i)
    copyToUser sp (kargv i) (argSize (kargv i))
    pushStrings kargv i sp (Function.update uargv i sp)

/-- The first `n` pointers. -/
def pushPointers (sp : ℕ) (uargv : ℕ → ℕ) : ℕ → M FileSide Unit
  | 0 => pure ()
  | n + 1 => do
    pushPointers sp uargv n
    copyToUser (sp + n * 8) (Bytes.ofWord (uargv n)) 8

/-- Where `argv` goes below the strings. -/
def argvSp (sp argc : ℕ) : ℕ := roundDown (sp - (argc + 1) * 8) 8

/-- Returns `argv_user`. -/
def pushArgs (argc : ℕ) (kargv : ℕ → Bytes) : M FileSide ℕ := do
  let r ← pushStrings kargv argc ustackTop fun _ => 0
  let sp := argvSp r.1 argc
  pushPointers sp r.2 argc
  copyToUser (sp + argc * 8) (Bytes.ofWord 0) 8
  pure sp

/-! ## The segments -/

section
variable (A : Allocator) (dev : Device) (room : ℕ → Bool) (junk : Bytes) (boot : ℕ)
  (frame : StackFrame)

/-- The bytes of the file that are in the page at `cur`. -/
def readPage (fd : ℕ) (ph : Proghdr) (cur page : ℕ) : M FileSide Unit := do
  memset page 0 0 pgSize
  let fileEnd := (ph.pVa + ph.pFilesz) % 2 ^ 64
  let segCopyStart := if cur < ph.pVa then ph.pVa else cur
  let segCopyEnd := if cur + pgSize < fileEnd then cur + pgSize else fileEnd
  if segCopyStart < segCopyEnd then
    loadIcodeRead dev room junk fd (.page page (segCopyStart - cur)) (segCopyEnd - segCopyStart)
      (Int.bmod (ph.pOffset + (segCopyStart - ph.pVa)) (2 ^ 64))
  else pure ()

/-- `while (cur < map_end)` -/
def pageLoop (fd : ℕ) (ph : Proghdr) (perm : BitVec 32) (mapEnd : ℕ) : ℕ → ℕ → M FileSide Unit
  | 0, _ => Code.panic
  | n + 1, cur =>
    if cur < mapEnd then do
      match ← allocPage A cur perm with
      | none => Code.throw .noMem
      | some page => do
        readPage dev room junk fd ph cur page
        pageLoop fd ph perm mapEnd n (cur + pgSize)
    else pure ()

def loadSegment (fd : ℕ) (ph : Proghdr) : M FileSide Unit :=
  if ph.pType ≠ elfPtLoad then pure ()
  else if ph.pMemsz < ph.pFilesz then Code.throw .invalElf
  else do
    let vmFlags := segFlags ph.pFlags
    let perm := segPerm vmFlags
    let mapStart := roundDown ph.pVa pgSize
    let mapEnd := roundUp ((ph.pVa + ph.pMemsz) % 2 ^ 64) pgSize
    mapArea room mapStart ((mapEnd + 2 ^ 64 - mapStart) % 2 ^ 64) vmFlags
    pageLoop A dev room junk fd ph perm mapEnd (pages mapStart mapEnd + 1) mapStart

/-- A program header is read into `ph`. -/
def readProghdr (fd : ℕ) (offset : ℕ) : M FileSide Proghdr := do
  loadIcodeRead dev room junk fd (.stack frame.ph) sizeofProghdr (Int.bmod offset (2 ^ 64))
  let s ← Code.get
  pure (Proghdr.ofBytes (s.io.stack.from' frame.ph))

/-- `for (uint32_t i = 0; i < phnum; i++)` -/
def loadSegments (fd phoff : ℕ) : ℕ → ℕ → M FileSide Unit
  | 0, _ => pure ()
  | n + 1, i => do
    let ph ← readProghdr dev room junk frame fd (phoff + i * sizeofProghdr)
    loadSegment A dev room junk fd ph
    loadSegments fd phoff n (i + 1)

/-! ## `load_icode` -/

def elfhdr : M FileSide Elfhdr := do
  let s ← Code.get
  pure (Elfhdr.ofBytes (s.io.stack.from' frame.elf))

def readElfhdr (fd : ℕ) : M FileSide Unit := do
  loadIcodeRead dev room junk fd (.stack frame.elf) sizeofElfhdr 0
  let elf ← elfhdr frame
  if elf.eMagic ≠ elfMagic then Code.throw .invalElf else pure ()

/-- The steps (3.2) to (4). -/
def loadImage (fd : ℕ) : M FileSide Unit := do
  let elf ← elfhdr frame
  loadSegments A dev room junk frame fd elf.ePhoff elf.ePhnum 0
  mapArea room (ustackTop - ustackSize) ustackSize (vmRead ||| vmWrite ||| vmStack)
  match ← allocPage A (ustackTop - pgSize) (pteUser.setWidth 32) with
  | none => Code.throw .noMem
  | some _ => pure ()

/-- `bad_exec` -/
def badExec {α : Type} (e : Errno) : M FileSide α := do
  Code.modify fun s => { s with satp := boot }
  badMmap A e

def loadIcode (fd argc : ℕ) (kargv : ℕ → Bytes) : M FileSide Unit := do
  Code.assert (1 ≤ argc ∧ argc ≤ execMaxArgNum)
  let s ← Code.get
  Code.assert (s.curMm = false)
  if ← createMm room then
    match ← Code.attempt (setupPgdir A boot) with
    | .error e => badPgdir e
    | .ok () =>
      match ← Code.attempt (readElfhdr dev room junk frame fd) with
      | .error e => badElf e
      | .ok () =>
        match ← Code.attempt (loadImage A dev room junk frame fd) with
        | .error e => badMmap A e
        | .ok () => do
          install
          match ← Code.attempt (pushArgs argc kargv) with
          | .error e => badExec A boot e
          | .ok argvUser => do
            let elf ← elfhdr frame
            Code.modify fun s => { s with tf :=
              { epc := elf.eEntry, sp := argvUser, a0 := argc, a1 := argvUser
                status := (s.sstatus ||| sstatusSpie) &&& ~~~sstatusSpp } }
  else Code.throw .noMem

end

end Ucore.Loader
