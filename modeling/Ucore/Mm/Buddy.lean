/-
  `kern/mm/buddy_pmm.c`: the buddy allocator of lab 2.

  Page descriptors are numbered as in the `pages` array, so a number stands for the address of a
  `struct Page`; the page numbers of physical memory start at `nbase` instead.  `managed` are the
  descriptors of the ranges given to `buddy_init_memmap`.  `none` is an access to any other
  descriptor or to an order that `free_buddy` does not have, a failed assertion, or a loop that does
  not end.
-/
import Ucore.Mm.DefaultPmm
import Mathlib.Algebra.BigOperators.Group.Finset.Basic

namespace Ucore

open Intrusive

/-- `MAX_ORDER` -/
def maxOrder : ℕ := 20

/-- `DRAM_BASE / PGSIZE` -/
def nbase : ℕ := 0x80000

/-- A `list_entry_t` of the free lists. -/
inductive BuddyNode where
  | freeList (order : ℕ)
  | pageLink (p : ℕ)
  deriving DecidableEq

/-- The page descriptors and `free_buddy`. -/
structure Buddy where
  npage : ℕ
  page : ℕ → Page
  links : Links BuddyNode
  nrFree : ℕ → ℕ
  managed : Finset ℕ

namespace Buddy

/-- Reads a descriptor. -/
def desc (s : Buddy) (p : ℕ) : Option Page := if p ∈ s.managed then some (s.page p) else none

/-- Writes a descriptor. -/
def modify (s : Buddy) (p : ℕ) (f : Page → Page) : Option Buddy :=
  if p ∈ s.managed then some { s with page := Function.update s.page p (f (s.page p)) } else none

/-- `list_add(&(free_buddy[order].free_list), &(page->page_link)); free_buddy[order].nr_free++` -/
def addFree (s : Buddy) (page order : ℕ) : Option Buddy :=
  if order < maxOrder then some { s with
    links := listAdd s.links (.freeList order) (.pageLink page)
    nrFree := Function.update s.nrFree order (u32 (s.nrFree order + 1)) }
  else none

/-- `list_del(&(page->page_link)); free_buddy[order].nr_free--` -/
def delFree (s : Buddy) (page order : ℕ) : Option Buddy :=
  if order < maxOrder then some { s with
    links := listDel s.links (.pageLink page)
    nrFree := Function.update s.nrFree order (u32 (s.nrFree order + (2 ^ 32 - 1))) }
  else none

/-- `page->property = order; SetPageProperty(page)` -/
def setBlock (s : Buddy) (page order : ℕ) : Option Buddy :=
  s.modify page fun g => setPageProperty { g with property := u32 order }

def page2ppn (page : ℕ) : ℕ := page + nbase

/-- The page number that `get_buddy_page` indexes `pages` with; `none` is `NULL`. -/
def getBuddyPage (s : Buddy) (page order : ℕ) : Option ℕ :=
  let buddyPpn := page2ppn page ^^^ 2 ^ order
  if buddyPpn ≥ s.npage then none else some buddyPpn

/-! ## `buddy_init_memmap` -/

/-- `while (size > 1) { size >>= 1; order++; }` -/
def halvings : ℕ → ℕ → ℕ → ℕ
  | 0, _, order => order
  | fuel + 1, size, order =>
    if size > 1 then halvings fuel (size >>> (1 : ℕ)) (order + 1) else order

/-- The order of the first block that a range of `n` pages is cut into. -/
def initOrder (n : ℕ) : ℕ :=
  let order := halvings 64 n 0
  if n ≠ 2 ^ order then order - 1 else order

/-- `p->flags = p->property = 0; set_page_ref(p, 0)` for `n` pages. -/
def clearPages : ℕ → ℕ → Buddy → Option Buddy
  | _, 0, s => some s
  | p, n + 1, s => do
    let s ← s.modify p fun g => setPageRef { g with flags := 0, property := 0 } 0
    clearPages (p + 1) n s

/-- Each call takes at least one page of the range. -/
def buddyInitMemmap : ℕ → ℕ → ℕ → Buddy → Option Buddy
  | 0, _, _, _ => none
  | fuel + 1, base, n, s =>
    if n = 0 then none
    else do
      let s ← clearPages base n s
      let order := initOrder n
      let s ← s.setBlock base order
      let s ← s.addFree base order
      let remaining := n - 2 ^ order
      if remaining > 0 then buddyInitMemmap fuel (base + 2 ^ order) remaining s else some s

/-! ## `buddy_alloc_pages` -/

/-- `while ((1UL << order) < size) order++`; the word has 64 bits. -/
def orderLoop (size : ℕ) : ℕ → ℕ → Option ℕ
  | 0, _ => none
  | fuel + 1, order => if 2 ^ order < size then orderLoop size fuel (order + 1) else some order

def orderOf (size : ℕ) : Option ℕ := orderLoop size 64 0

/-- The first order from `order` on whose list is not empty. -/
def findFree (s : Buddy) : ℕ → ℕ → Option ℕ
  | 0, _ => none
  | fuel + 1, order =>
    if order < maxOrder then
      if listEmpty s.links (.freeList order) then findFree s fuel (order + 1) else some order
    else none

/-- `while (current_order > order)`, with `current_order = order + k`. -/
def splitLoop (page order : ℕ) : ℕ → Buddy → Option Buddy
  | 0, s => some s
  | k + 1, s => do
    let buddy := page + 2 ^ (order + k)
    let s ← s.setBlock buddy (order + k)
    let s ← s.addFree buddy (order + k)
    splitLoop page order k s

/-- The page, or `none` for `NULL`, and the new state. -/
def buddyAllocPages (s : Buddy) (n : ℕ) : Option (Option ℕ × Buddy) :=
  if n = 0 then none
  else do
    let order ← orderOf n
    match s.findFree maxOrder order with
    | none => some (none, s)
    | some current =>
      match listNext s.links (.freeList current) with
      | .freeList _ => none
      | .pageLink page => do
        let s ← s.delFree page current
        let s ← splitLoop page order (current - order) s
        let s ← s.modify page clearPageProperty
        some (some page, s)

/-! ## `buddy_free_pages` -/

/-- The loop that joins `base` with free buddies. -/
def mergeLoop : ℕ → ℕ → ℕ → Buddy → Option (ℕ × ℕ × Buddy)
  | 0, base, order, s => some (base, order, s)
  | fuel + 1, base, order, s =>
    if order < maxOrder - 1 then
      match s.getBuddyPage base order with
      | none => some (base, order, s)
      | some buddy => do
        let g ← s.desc buddy
        if pageProperty g ∧ g.property = order then do
          let s ← s.delFree buddy order
          let s ← s.modify buddy clearPageProperty
          let base := if buddy < base then buddy else base
          let s ← s.modify base fun g => { g with property := u32 (order + 1) }
          mergeLoop fuel base (order + 1) s
        else some (base, order, s)
    else some (base, order, s)

def buddyFreePages (s : Buddy) (base n : ℕ) : Option Buddy :=
  if n = 0 then none
  else do
    let order ← orderOf n
    let s ← s.setBlock base order
    let (base, order, s) ← mergeLoop maxOrder base order s
    s.addFree base order

/-! ## The rest of the manager -/

/-- `buddy_init`, with the descriptors as they are. -/
def buddyInit (npage : ℕ) (page : ℕ → Page) (L : Links BuddyNode) : Buddy where
  npage := npage
  page := page
  links := (List.range maxOrder).foldl (fun L k => listInit L (.freeList k)) L
  nrFree _ := 0
  managed := ∅

def buddyNrFreePages (s : Buddy) : ℕ :=
  (∑ i ∈ Finset.range maxOrder, s.nrFree i * 2 ^ i) % 2 ^ 64

end Buddy

end Ucore
