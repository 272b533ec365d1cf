/-
  `kern/mm/pmm.c`: page tables.

  Pages are named by their page numbers; a page is 512 words of 64 bits, whether it holds entries of
  a page table or data of a user.  A pointer to an entry is a page and an index.  Allocation goes
  through `struct pmm_manager`, whose functions are a parameter (`Allocator`).  A function returns a
  value or an error code, and `none` is a failed assertion, a `panic` or a loop that does not end.
-/
import Ucore.Lib.Code
import Ucore.Libs.Error
import Ucore.Mm.Mmu
import Mathlib.Data.Finset.SDiff
import Mathlib.Order.Interval.Finset.Nat

namespace Ucore.Pmm

def userBase : ℕ := 0x00200000
def userTop : ℕ := 0x80000000

/-- `USER_ACCESS` -/
def UserAccess (start end_ : ℕ) : Prop := userBase ≤ start ∧ start < end_ ∧ end_ ≤ userTop

instance (start end_ : ℕ) : Decidable (UserAccess start end_) :=
  inferInstanceAs (Decidable (_ ∧ _ ∧ _))

/-! ## Structures -/

/-- Physical memory and the page allocator: its free pages, and the time, which counts requests. -/
structure Phys where
  npage : ℕ
  word : ℕ → ℕ → BitVec 64
  ref : ℕ → ℤ
  free : Finset ℕ
  time : ℕ

/-- The `alloc_pages` of a `struct pmm_manager`: the first of `n` free pages, if it finds some. -/
structure Allocator where
  pick : ℕ → ℕ → Finset ℕ → Option ℕ
  mem : ∀ {t n : ℕ} {F : Finset ℕ} {p : ℕ}, pick t n F = some p → ∀ q, p ≤ q → q < p + n → q ∈ F

namespace Phys

def setRef (s : Phys) (p : ℕ) (n : ℤ) : Phys := { s with ref := Function.update s.ref p n }

def setPage (s : Phys) (p : ℕ) (w : ℕ → BitVec 64) : Phys :=
  { s with word := Function.update s.word p w }

def setWord (s : Phys) (p i : ℕ) (w : BitVec 64) : Phys :=
  s.setPage p (Function.update (s.word p) i w)

def take (s : Phys) (p n : ℕ) : Phys := { s with free := s.free \ Finset.Ico p (p + n) }

/-- The pages go back to the allocator, which resets their reference counts. -/
def give (s : Phys) (p n : ℕ) : Phys :=
  { s with
    free := s.free ∪ Finset.Ico p (p + n)
    ref := fun q => if q ∈ Finset.Ico p (p + n) then 0 else s.ref q }

end Phys

abbrev M (α : Type) : Type := Code Phys Errno α

/-! ## Pages -/

section
variable (A : Allocator)

/-- `alloc_pages` -/
def allocPages (n : ℕ) : M (Option ℕ) := do
  let s ← Code.get
  Code.modify fun s => { s with time := s.time + 1 }
  match A.pick s.time n s.free with
  | some page => do
    Code.modify fun s => s.take page n
    pure (some page)
  | none => pure none

/-- `free_pages`; a page is not freed twice. -/
def freePages (base n : ℕ) : M Unit := do
  let s ← Code.get
  Code.assert (∀ p ∈ Finset.Ico base (base + n), p ∉ s.free)
  Code.modify fun s => s.give base n

/-- `KADDR` of the page's address. -/
def kaddr (page : ℕ) : M Unit := do
  let s ← Code.get
  Code.assert (page < s.npage)

/-- `pde2page`, which is `pa2page` of the entry's address. -/
def pde2page (pde : BitVec 64) : M ℕ := do
  kaddr (ptePage pde)
  pure (ptePage pde)

def pte2page (pte : BitVec 64) : M ℕ := do
  Code.assert (pteValid pte)
  pde2page pte

def setPageRef (page : ℕ) (n : ℤ) : M Unit := Code.modify fun s => s.setRef page n

def pageRefInc (page : ℕ) : M Unit := Code.modify fun s => s.setRef page (s.ref page + 1)

def pageRefDec (page : ℕ) : M Unit := Code.modify fun s => s.setRef page (s.ref page - 1)

def setWord (page i : ℕ) (w : BitVec 64) : M Unit := Code.modify fun s => s.setWord page i w

/-! ## Entries -/

/-- One level of `get_pte`: the table that entry `i` of the directory `pd` points to. -/
def getTable (pd i : ℕ) (create : Bool) : M (Option ℕ) := do
  let s ← Code.get
  if pteValid (s.word pd i) then do
    kaddr (ptePage (s.word pd i))
    pure (some (ptePage (s.word pd i)))
  else if create then do
    match ← allocPages A 1 with
    | none => pure none
    | some page => do
      setPageRef page 1
      kaddr page
      Code.modify fun s => s.setPage page fun _ => 0
      setWord pd i (pteCreate page ((pteU ||| pteV).setWidth 32))
      let s ← Code.get
      kaddr (ptePage (s.word pd i))
      pure (some (ptePage (s.word pd i)))
  else pure none

def getPte (pgdir la : ℕ) (create : Bool) : M (Option (ℕ × ℕ)) := do
  match ← getTable A pgdir (pdx1 la) create with
  | none => pure none
  | some pd0 =>
    match ← getTable A pd0 (pdx0 la) create with
    | none => pure none
    | some pt => pure (some (pt, ptx la))

/-- `*ptep` -/
def deref (ptep : ℕ × ℕ) : M (BitVec 64) := do
  let s ← Code.get
  pure (s.word ptep.1 ptep.2)

def getPage (pgdir la : ℕ) : M (Option ℕ) := do
  match ← getPte A pgdir la false with
  | none => pure none
  | some ptep => do
    let pte ← deref ptep
    if pteValid pte then do
      let page ← pte2page pte
      pure (some page)
    else pure none

def pageRemovePte (ptep : ℕ × ℕ) : M Unit := do
  let pte ← deref ptep
  if pteValid pte then do
    let page ← pte2page pte
    pageRefDec page
    let s ← Code.get
    if s.ref page = 0 then freePages page 1 else pure ()
    setWord ptep.1 ptep.2 0
  else pure ()

def pageRemove (pgdir la : ℕ) : M Unit := do
  match ← getPte A pgdir la false with
  | none => pure ()
  | some ptep => pageRemovePte ptep

/-- What `page_insert` does about the entry that it finds. -/
def replacePte (page : ℕ) (ptep : ℕ × ℕ) : M Unit := do
  let pte ← deref ptep
  if pteValid pte then do
    let p ← pte2page pte
    if p = page then pageRefDec page else pageRemovePte ptep
  else pure ()

def pageInsert (pgdir page la : ℕ) (perm : BitVec 32) : M Unit := do
  match ← getPte A pgdir la true with
  | none => Code.throw .noMem
  | some ptep => do
    pageRefInc page
    replacePte page ptep
    setWord ptep.1 ptep.2 (pteCreate page (pteV.setWidth 32 ||| perm))

def pgdirAllocPage (pgdir la : ℕ) (perm : BitVec 32) : M (Option ℕ) := do
  match ← allocPages A 1 with
  | none => pure none
  | some page => do
    match ← Code.attempt (pageInsert A pgdir page la perm) with
    | .error _ => do
      freePages page 1
      pure none
    | .ok () => do
      let s ← Code.get
      Code.assert (s.ref page = 1)
      pure (some page)

/-! ## Ranges -/

/-- `ROUNDDOWN(start + PTSIZE, PTSIZE)` -/
def nextTable (start : ℕ) : ℕ := roundDown (start + ptSize) ptSize

/-- The loop of `unmap_range` and of `copy_range`, which does `body` about an entry. -/
def walk (pgdir end_ : ℕ) (body : ℕ → ℕ × ℕ → M Unit) : ℕ → ℕ → M Unit
  | 0, _ => Code.panic
  | n + 1, start => do
    let next ←
      match ← getPte A pgdir start false with
      | none => pure (nextTable start)
      | some ptep => do
        body start ptep
        pure (start + pgSize)
    if next ≠ 0 ∧ next < end_ then walk pgdir end_ body n next else pure ()

/-- More steps than there are pages do not lead through a range. -/
def pages (start end_ : ℕ) : ℕ := (end_ - start) / pgSize + 1

/-- What `unmap_range` does about an entry. -/
def unmapPage (_start : ℕ) (ptep : ℕ × ℕ) : M Unit := do
  let pte ← deref ptep
  if pte ≠ 0 then pageRemovePte ptep else pure ()

def unmapRange (pgdir start end_ : ℕ) : M Unit := do
  Code.assert (start % pgSize = 0 ∧ end_ % pgSize = 0)
  Code.assert (UserAccess start end_)
  walk A pgdir end_ unmapPage (pages start end_) start

/-- What `copy_range` does about a valid entry of `from`. -/
def copyPage (to_ start : ℕ) (ptep : ℕ × ℕ) : M Unit := do
  match ← getPte A to_ start true with
  | none => Code.throw .noMem
  | some _ => do
    let pte ← deref ptep
    let page ← pte2page pte
    match ← allocPages A 1 with
    | none => Code.panic
    | some npage => do
      kaddr page
      kaddr npage
      Code.modify fun s => s.setPage npage (s.word page)
      match ← Code.attempt (pageInsert A to_ npage start ((pte &&& pteUser).setWidth 32)) with
      | .error e => do
        freePages npage 1
        Code.throw e
      | .ok () => pure ()

/-- What `copy_range` does about an entry of `from`. -/
def copyEntry (to_ start : ℕ) (ptep : ℕ × ℕ) : M Unit := do
  let pte ← deref ptep
  if pteValid pte then copyPage A to_ start ptep else pure ()

def copyRange (to_ from_ start end_ : ℕ) : M Unit := do
  Code.assert (start % pgSize = 0 ∧ end_ % pgSize = 0)
  Code.assert (UserAccess start end_)
  walk A from_ end_ (copyEntry A to_) (pages start end_) start

/-! ## `exit_range` -/

/-- No entry of the page table is valid. -/
def tableEmpty (w : ℕ → BitVec 64) : Bool := (List.range 512).all fun i => !pteValid (w i)

/-- The loop over a level 0 directory; returns `free_pd0`. -/
def exitDir (pd0 dirEnd end_ : ℕ) : ℕ → ℕ → Bool → M Bool
  | 0, _, _ => Code.panic
  | n + 1, d0start, freePd0 => do
    let s ← Code.get
    let pde0 := s.word pd0 (pdx0 d0start)
    let freePd0 ←
      if pteValid pde0 then do
        let pt ← pde2page pde0
        if tableEmpty (s.word pt) then do
          freePages pt 1
          setWord pd0 (pdx0 d0start) 0
        else pure ()
        pure freePd0
      else pure false
    let d0start := d0start + ptSize
    if d0start ≠ 0 ∧ d0start < dirEnd ∧ d0start < end_ then
      exitDir pd0 dirEnd end_ n d0start freePd0
    else pure freePd0

def exitLoop (pgdir end_ : ℕ) : ℕ → ℕ → ℕ → M Unit
  | 0, _, _ => Code.panic
  | n + 1, d1start, d0start => do
    let s ← Code.get
    let pde1 := s.word pgdir (pdx1 d1start)
    if pteValid pde1 then do
      let pd0 ← pde2page pde1
      let freePd0 ← exitDir pd0 (d1start + pdSize) end_ 512 d0start true
      if freePd0 then do
        freePages pd0 1
        setWord pgdir (pdx1 d1start) 0
      else pure ()
    else pure ()
    let d1start := d1start + pdSize
    if d1start ≠ 0 ∧ d1start < end_ then exitLoop pgdir end_ n d1start d1start else pure ()

def exitRange (pgdir start end_ : ℕ) : M Unit := do
  Code.assert (start % pgSize = 0 ∧ end_ % pgSize = 0)
  Code.assert (UserAccess start end_)
  exitLoop pgdir end_ 512 (roundDown start pdSize) (roundDown start ptSize)

end

end Ucore.Pmm
