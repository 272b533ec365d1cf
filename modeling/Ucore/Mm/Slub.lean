/-
  `lab2/kern/mm/slub_pmm.c`: the SLUB caches.

  Memory is bytes.  A slab is a page that begins with its `slab_t` of 56 bytes: `list_link`, then
  `objects` at 16, `bitmap` at 24, `free_objects` at 32, `total_objects` at 40 and `cache` at 48.  A
  `cache_t` has 72 bytes: the heads of `slabs_full`, `slabs_partial` at 16 and `slabs_free` at 32,
  `object_size` at 48, `objects_per_slab` at 56; its `name`, like the other texts, is only printed
  and left out.

  Pointers are kernel virtual addresses, 0 is `NULL`, and pages are given by their numbers:
  `page2kva` of page `q` is `4096 * q`, and the page of a pointer is found by division.  The answers
  of the page allocator are parameters (`page`: what `alloc_pages` returns), and `taken` are the
  pages that it has given and not got back.  `none` is a `panic`.
-/
import Ucore.Libs.ListMem
import Mathlib.Data.Fin.VecNotation
import Mathlib.Order.Interval.Finset.Nat

namespace Ucore

structure Slub where
  mem : Bytes
  initialized : Bool
  totalAllocated : ℕ
  totalFreed : ℕ
  taken : Finset ℕ

/-- `SLAB_CACHE_SIZES` -/
def slabCacheSizes : Fin 3 → ℕ := ![32, 64, 128]

/-- `&slub_caches[i]` -/
def cacheAt (caches : ℕ) (i : Fin 3) : ℕ := caches + 72 * i

/-- The fill of a slab, by which it is on one of the lists of its cache. -/
inductive Fill where
  | full
  | partly
  | free
  deriving DecidableEq

/-- The offset in a `cache_t` of the head of a list. -/
def Fill.head : Fill → ℕ
  | .full => 0
  | .partly => 16
  | .free => 32

/-! ## Bits -/

/-- `bitmap[k / 8] & (1 << (k % 8))` -/
def bitAt (m : Bytes) (bitmap k : ℕ) : Bool := (m (bitmap + k / 8)).toNat.testBit (k % 8)

/-- `bitmap[k / 8] |= (1 << (k % 8))` -/
def setBitAt (m : Bytes) (bitmap k : ℕ) : Bytes :=
  Function.update m (bitmap + k / 8) (m (bitmap + k / 8) ||| UInt8.ofNat (2 ^ (k % 8)))

/-- `bitmap[k / 8] &= ~(1 << (k % 8))` -/
def clearBitAt (m : Bytes) (bitmap k : ℕ) : Bytes :=
  Function.update m (bitmap + k / 8) (m (bitmap + k / 8) &&& ~~~UInt8.ofNat (2 ^ (k % 8)))

/-! ## Initialisation -/

def calculateObjectsPerSlab (objectSize : ℕ) : ℕ :=
  let availableSize := 4096 - 56
  let bitmapBits := availableSize * 8 / (objectSize * 8 + 1)
  let bitmapSize := (bitmapBits + 7) / 8
  let objects := (availableSize - bitmapSize) / objectSize
  if 0 < objects then objects else 1

def cacheInit (m : Bytes) (cache objectSize : ℕ) : Bytes :=
  let m := m.setWord 8 (cache + 48) objectSize
  let m := m.setWord 8 (cache + 56) (calculateObjectsPerSlab objectSize)
  memListInit (memListInit (memListInit m (cache + Fill.full.head)) (cache + Fill.partly.head))
    (cache + Fill.free.head)

def slubInit (caches : ℕ) (s : Slub) : Slub :=
  if s.initialized = true then s
  else
    { s with
      mem := (List.finRange 3).foldl
        (fun m i => cacheInit m (cacheAt caches i) (slabCacheSizes i)) s.mem
      initialized := true }

/-! ## Allocation -/

/-- What `slab_create` writes to the page of a slab; `count` and `size` are the `objects_per_slab`
    and the `object_size` of its cache. -/
def initSlab (m : Bytes) (cache slab count size : ℕ) : Bytes :=
  let bitmap := slab + 56 + count * size
  let m := m.setWord 8 (slab + 16) (slab + 56)
  let m := m.setWord 8 (slab + 32) count
  let m := m.setWord 8 (slab + 40) count
  let m := m.setWord 8 (slab + 48) cache
  let m := m.setWord 8 (slab + 24) bitmap
  m.fill bitmap 0 ((count + 7) / 8)

def slabCreate (page : Option ℕ) (cache : ℕ) (s : Slub) : Option ℕ × Slub :=
  match page with
  | none => (none, s)
  | some q =>
    let slab := 4096 * q
    let m := initSlab s.mem cache slab (s.mem.word 8 (cache + 56)) (s.mem.word 8 (cache + 48))
    (some slab, { s with
      mem := memListAdd m (cache + Fill.free.head) slab
      taken := insert q s.taken })

/-- Moves a slab to the front of a list of its cache. -/
def moveSlab (m : Bytes) (cache slab : ℕ) (f : Fill) : Bytes :=
  memListAdd (memListDel m slab) (cache + f.head) slab

/-- The slab `slub_alloc` takes the object from: a partial one, else a free one, else a new one. -/
def findSlab (page : Option ℕ) (cache : ℕ) (s : Slub) : Option ℕ × Slub :=
  let partlyNext := (linksOf s.mem).next (cache + Fill.partly.head)
  let freeNext := (linksOf s.mem).next (cache + Fill.free.head)
  if partlyNext ≠ cache + Fill.partly.head then (some partlyNext, s)
  else if freeNext ≠ cache + Fill.free.head then
    (some freeNext, { s with mem := moveSlab s.mem cache freeNext .partly })
  else
    match slabCreate page cache s with
    | (none, s) => (none, s)
    | (some slab, s) => (some slab, { s with mem := moveSlab s.mem cache slab .partly })

/-- The loop of `slub_alloc` over the bitmap of a slab. -/
def takeObject (cache slab : ℕ) (s : Slub) : Option ℕ × Slub :=
  let objects := s.mem.word 8 (slab + 16)
  let bitmap := s.mem.word 8 (slab + 24)
  match (List.range (s.mem.word 8 (slab + 40))).find? fun k => bitAt s.mem bitmap k = false with
  | none => (none, s)
  | some k =>
    let free := (s.mem.word 8 (slab + 32) + 2 ^ 64 - 1) % 2 ^ 64
    let size := s.mem.word 8 (cache + 48)
    let obj := objects + k * size
    let m := (setBitAt s.mem bitmap k).setWord 8 (slab + 32) free
    let m := m.fill obj 0 size
    (some obj, { s with
      mem := if free = 0 then moveSlab m cache slab .full else m
      totalAllocated := s.totalAllocated + 1 })

/-- `pages_needed`, a sum of 64-bit numbers. -/
def pagesNeeded (size : ℕ) : ℕ := (size + 4096 - 1) % 2 ^ 64 / 4096

/-- The cache whose objects have at least the size. -/
def targetCache (caches : ℕ) (m : Bytes) (size : ℕ) : Option (Fin 3) :=
  (List.finRange 3).find? fun i => size ≤ m.word 8 (cacheAt caches i + 48)

def slubAlloc (caches : ℕ) (page : Option ℕ) (size : ℕ) (s : Slub) : Option ℕ × Slub :=
  let s := slubInit caches s
  if size = 0 then (none, s)
  else
    match targetCache caches s.mem size with
    | none =>
      match page with
      | none => (none, s)
      | some q =>
        (some (4096 * q), { s with taken := s.taken ∪ Finset.Ico q (q + pagesNeeded size) })
    | some i =>
      match findSlab page (cacheAt caches i) s with
      | (none, s) => (none, s)
      | (some slab, s) => takeObject (cacheAt caches i) slab s

/-! ## Release -/

def slubFreePages (addr n : ℕ) (s : Slub) : Slub :=
  if addr = 0 then s
  else { s with taken := s.taken \ Finset.Ico (addr / 4096) (addr / 4096 + n) }

/-- A division of `size_t`, which is `divu`. -/
def divu (a b : ℕ) : ℕ := if b = 0 then 2 ^ 64 - 1 else a / b

def slubFree (obj : ℕ) (s : Slub) : Option Slub :=
  if obj = 0 then some s
  else
    let slab := 4096 * (obj / 4096)
    let cache := s.mem.word 8 (slab + 48)
    if cache = 0 then some (slubFreePages obj 1 s)
    else
      let offset := (obj + 2 ^ 64 - s.mem.word 8 (slab + 16)) % 2 ^ 64
      let k := divu offset (s.mem.word 8 (cache + 48))
      let bitmap := s.mem.word 8 (slab + 24)
      let total := s.mem.word 8 (slab + 40)
      if total ≤ k then none
      else if bitAt s.mem bitmap k = false then none
      else
        let free := (s.mem.word 8 (slab + 32) + 1) % 2 ^ 64
        let m := (clearBitAt s.mem bitmap k).setWord 8 (slab + 32) free
        some { s with
          mem := moveSlab m cache slab (if free = total then .free else .partly)
          totalFreed := s.totalFreed + 1 }

end Ucore
