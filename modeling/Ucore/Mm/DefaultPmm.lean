/-
  `kern/mm/default_pmm.c`: the first-fit page allocator.

  The page descriptors are numbered `0, …, npage - 1` in the order of the `pages` array, so a
  number stands for the address of a `struct Page` and `base + n` for pointer arithmetic.  The
  free list runs through the `page_link` fields.  `none` is a failed assertion, or a walk over
  the free list that never ends.
-/
import Ucore.Libs.List
import Mathlib.Data.Finset.Lattice.Basic
import Mathlib.Order.Interval.Finset.Nat
import Mathlib.Tactic.Ring

namespace Ucore

open Intrusive

/-- `unsigned int` arithmetic. -/
abbrev u32 (n : ℕ) : ℕ := n % 2 ^ 32

/-! ## Page descriptors -/

/-- `struct Page`, without the fields the allocator never touches. -/
structure Page where
  ref : ℤ
  flags : BitVec 64
  property : ℕ

def pgReserved : ℕ := 0
def pgProperty : ℕ := 1

def setBit (nr : ℕ) (w : BitVec 64) : BitVec 64 := w ||| BitVec.twoPow 64 nr
def clearBit (nr : ℕ) (w : BitVec 64) : BitVec 64 := w &&& ~~~BitVec.twoPow 64 nr
def testBit (nr : ℕ) (w : BitVec 64) : Bool := w.getLsbD nr

def pageReserved (p : Page) : Bool := testBit pgReserved p.flags
def pageProperty (p : Page) : Bool := testBit pgProperty p.flags
def setPageProperty (p : Page) : Page := { p with flags := setBit pgProperty p.flags }
def clearPageProperty (p : Page) : Page := { p with flags := clearBit pgProperty p.flags }
def setPageRef (p : Page) (val : ℤ) : Page := { p with ref := val }

/-- A `list_entry_t` of the free list: its head, or the `page_link` of a page. -/
inductive Le where
  | freeList
  | pageLink (p : ℕ)
  deriving DecidableEq

/-- The page descriptors and `free_area`. -/
structure Pmm where
  npage : ℕ
  page : ℕ → Page
  links : Links Le
  nrFree : ℕ

namespace Pmm

/-- Writes to one descriptor. -/
def modify (s : Pmm) (p : ℕ) (f : Page → Page) : Pmm :=
  { s with page := Function.update s.page p (f (s.page p)) }

def setProperty (s : Pmm) (p n : ℕ) : Pmm := s.modify p fun g => { g with property := u32 n }

/-- A walk over the free list that visits more nodes than there are descriptors has met one of
    them twice, and never ends. -/
def fuel (s : Pmm) : ℕ := s.npage + 2

end Pmm

/-! ## The manager -/

def defaultInit (s : Pmm) : Pmm :=
  { s with links := listInit s.links .freeList, nrFree := 0 }

/-- `while ((le = list_next(le)) != &free_list)`, looking for the place of `base`.  The last
    branch has no `break`: the walk goes on behind the node it has just linked. -/
def insertWalk (base : ℕ) : ℕ → Links Le → Le → Option (Links Le)
  | 0, _, _ => none
  | k + 1, L, le =>
    match listNext L le with
    | .freeList => some L
    | .pageLink page =>
      if base < page then some (listAddBefore L (.pageLink page) (.pageLink base))
      else if listNext L (.pageLink page) = .freeList then
        insertWalk base k (listAdd L (.pageLink page) (.pageLink base)) (.pageLink page)
      else insertWalk base k L (.pageLink page)

/-- Links `base` into the free list (the same lines in `default_init_memmap` and
    `default_free_pages`). -/
def linkBase (s : Pmm) (base : ℕ) : Option Pmm :=
  if listEmpty s.links .freeList then
    some { s with links := listAdd s.links .freeList (.pageLink base) }
  else do
    let L ← insertWalk base s.fuel s.links .freeList
    some { s with links := L }

/-- `base->property = n; SetPageProperty(base); nr_free += n` -/
def makeBlock (s : Pmm) (base n : ℕ) : Pmm :=
  let s := (s.setProperty base n).modify base setPageProperty
  { s with nrFree := u32 (s.nrFree + n) }

/-- The loop of `default_init_memmap` over the pages `p, …, p + n - 1`. -/
def initPages : ℕ → ℕ → Pmm → Option Pmm
  | _, 0, s => some s
  | p, n + 1, s =>
    if pageReserved (s.page p) then
      initPages (p + 1) n
        (s.modify p fun g => setPageRef { g with flags := 0, property := 0 } 0)
    else none

def defaultInitMemmap (s : Pmm) (base n : ℕ) : Option Pmm :=
  if n = 0 then none
  else do
    let s ← initPages base n s
    linkBase (makeBlock s base n) base

/-- The search loop of `default_alloc_pages`. -/
def firstFitWalk (s : Pmm) (n : ℕ) : ℕ → Le → Option (Option ℕ)
  | 0, _ => none
  | k + 1, le =>
    match listNext s.links le with
    | .freeList => some none
    | .pageLink p =>
      if n ≤ (s.page p).property then some (some p) else firstFitWalk s n k (.pageLink p)

/-- Takes the first `n` pages of the block at `page`. -/
def takeBlock (s : Pmm) (page n : ℕ) : Pmm :=
  let prev := listPrev s.links (.pageLink page)
  let s := { s with links := listDel s.links (.pageLink page) }
  let s :=
    if n < (s.page page).property then
      let p := page + n
      let s := (s.setProperty p ((s.page page).property - n)).modify p setPageProperty
      { s with links := listAdd s.links prev (.pageLink p) }
    else s
  { s with nrFree := u32 (s.nrFree + 2 ^ 32 - u32 n) }.modify page clearPageProperty

/-- The result is the page returned (`none` is `NULL`) and the new state. -/
def defaultAllocPages (s : Pmm) (n : ℕ) : Option (Option ℕ × Pmm) :=
  if n = 0 then none
  else if s.nrFree < n then some (none, s)
  else do
    match ← firstFitWalk s n s.fuel .freeList with
    | none => some (none, s)
    | some page => some (some page, takeBlock s page n)

/-- The loop of `default_free_pages` over the pages `p, …, p + n - 1`. -/
def freeLoop : ℕ → ℕ → Pmm → Option Pmm
  | _, 0, s => some s
  | p, n + 1, s =>
    if !pageReserved (s.page p) && !pageProperty (s.page p) then
      freeLoop (p + 1) n (s.modify p fun g => setPageRef { g with flags := 0 } 0)
    else none

/-- Merges the block at `base` into the one before it, if they touch; returns the head of the
    block that `base` is now in. -/
def mergePrev (s : Pmm) (base : ℕ) : Pmm × ℕ :=
  match listPrev s.links (.pageLink base) with
  | .freeList => (s, base)
  | .pageLink p =>
    if p + (s.page p).property = base then
      let s := s.setProperty p ((s.page p).property + (s.page base).property)
      let s := s.modify base clearPageProperty
      ({ s with links := listDel s.links (.pageLink base) }, p)
    else (s, base)

/-- Merges the block after `base` into the one at `base`, if they touch. -/
def mergeNext (s : Pmm) (base : ℕ) : Pmm :=
  match listNext s.links (.pageLink base) with
  | .freeList => s
  | .pageLink p =>
    if base + (s.page base).property = p then
      let s := s.setProperty base ((s.page base).property + (s.page p).property)
      let s := s.modify p clearPageProperty
      { s with links := listDel s.links (.pageLink p) }
    else s

def defaultFreePages (s : Pmm) (base n : ℕ) : Option Pmm :=
  if n = 0 then none
  else do
    let s ← freeLoop base n s
    let s ← linkBase (makeBlock s base n) base
    let (s, base) := mergePrev s base
    some (mergeNext s base)

def defaultNrFreePages (s : Pmm) : ℕ := s.nrFree

end Ucore
