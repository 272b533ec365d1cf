/-
  `libs/elf.h`: the headers of an ELF file, and the flags that both `load_icode`s make of those of a
  segment.

  Only the fields that are read are in the structures.
-/
import Ucore.Lib.Bytes
import Ucore.Mm.Vmm

namespace Ucore.Loader

open Vmm (vmRead vmWrite vmExec)

def elfMagic : ℕ := 0x464C457F

def elfPtLoad : ℕ := 1

def elfPfX : BitVec 32 := 1#32
def elfPfW : BitVec 32 := 2#32
def elfPfR : BitVec 32 := 4#32

/-- `struct elfhdr` -/
structure Elfhdr where
  eMagic : ℕ
  eEntry : ℕ
  ePhoff : ℕ
  ePhnum : ℕ

/-- `struct proghdr` -/
structure Proghdr where
  pType : ℕ
  pFlags : BitVec 32
  pOffset : ℕ
  pVa : ℕ
  pFilesz : ℕ
  pMemsz : ℕ
  deriving DecidableEq

def sizeofElfhdr : ℕ := 64

def sizeofProghdr : ℕ := 56

def Elfhdr.ofBytes (m : Bytes) : Elfhdr where
  eMagic := Bytes.word 4 m 0
  eEntry := Bytes.word 8 m 24
  ePhoff := Bytes.word 8 m 32
  ePhnum := Bytes.word 2 m 56

def Proghdr.ofBytes (m : Bytes) : Proghdr where
  pType := Bytes.word 4 m 0
  pFlags := BitVec.ofNat 32 (Bytes.word 4 m 4)
  pOffset := Bytes.word 8 m 8
  pVa := Bytes.word 8 m 16
  pFilesz := Bytes.word 8 m 32
  pMemsz := Bytes.word 8 m 40

variable {m m' : Bytes}

theorem Elfhdr.ofBytes_congr (h : ∀ k < sizeofElfhdr, m k = m' k) :
    Elfhdr.ofBytes m = Elfhdr.ofBytes m' := by
  have hw : ∀ w off, off + w ≤ sizeofElfhdr → Bytes.word w m off = Bytes.word w m' off :=
    fun w off hle => Bytes.word_congr fun j hj => h _ (by omega)
  unfold Elfhdr.ofBytes
  rw [hw 4 0 (by decide), hw 8 24 (by decide), hw 8 32 (by decide), hw 2 56 (by decide)]

theorem Proghdr.ofBytes_congr (h : ∀ k < sizeofProghdr, m k = m' k) :
    Proghdr.ofBytes m = Proghdr.ofBytes m' := by
  have hw : ∀ w off, off + w ≤ sizeofProghdr → Bytes.word w m off = Bytes.word w m' off :=
    fun w off hle => Bytes.word_congr fun j hj => h _ (by omega)
  unfold Proghdr.ofBytes
  rw [hw 4 0 (by decide), hw 4 4 (by decide), hw 8 8 (by decide), hw 8 16 (by decide),
    hw 8 32 (by decide), hw 8 40 (by decide)]

/-! ## Flags -/

/-- `vm_flags` of a segment. -/
def segFlags (pFlags : BitVec 32) : BitVec 32 :=
  let vmFlags := 0#32
  let vmFlags := if pFlags &&& elfPfX ≠ 0 then vmFlags ||| vmExec else vmFlags
  let vmFlags := if pFlags &&& elfPfW ≠ 0 then vmFlags ||| vmWrite else vmFlags
  if pFlags &&& elfPfR ≠ 0 then vmFlags ||| vmRead else vmFlags

/-- `perm` of a segment. -/
def segPerm (vmFlags : BitVec 32) : BitVec 32 :=
  let perm := (pteU ||| pteV).setWidth 32
  let perm := if vmFlags &&& vmRead ≠ 0 then perm ||| pteR.setWidth 32 else perm
  let perm := if vmFlags &&& vmWrite ≠ 0 then perm ||| (pteW ||| pteR).setWidth 32 else perm
  if vmFlags &&& vmExec ≠ 0 then perm ||| pteX.setWidth 32 else perm

theorem permOk_segPerm (vmFlags : BitVec 32) : PermOk (segPerm vmFlags) := by
  unfold segPerm
  dsimp only
  split <;> split <;> split <;> decide

/-- **An area has the flags of its segment**, and no other ones. -/
theorem segFlags_spec (f : BitVec 32) :
    (segFlags f &&& vmRead ≠ 0 ↔ f &&& elfPfR ≠ 0) ∧
      (segFlags f &&& vmWrite ≠ 0 ↔ f &&& elfPfW ≠ 0) ∧
      (segFlags f &&& vmExec ≠ 0 ↔ f &&& elfPfX ≠ 0) ∧ segFlags f &&& ~~~7#32 = 0 := by
  unfold segFlags
  dsimp only
  split <;> split <;> split <;> simp_all [vmRead, vmWrite, vmExec]

end Ucore.Loader
