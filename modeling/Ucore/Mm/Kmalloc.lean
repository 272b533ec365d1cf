/-
  `kmalloc` and `kfree` (`kern/mm/kmalloc.c`).

  Requests below `PAGE_SIZE - SLOB_UNIT` are served from the SLOB list, with a header of one unit;
  larger ones get whole pages, and a `bigblock_t` from the SLOB list that says how many.

  * `findOrder_spec`, `bigBytes_iff`: how much a large request gets.
-/
import Ucore.Mm.Slob
import Mathlib.Data.BitVec

namespace Ucore

/-- `slob` has all words of the memory; `bigblocks` is the list of the requests that got pages. -/
structure Kmalloc where
  slob : Slob
  bigblocks : ℕ

/-- `sizeof(bigblock_t)` -/
def sizeofBigblock : ℕ := 24

/-- A `size_t` that is passed as an `int`. -/
def toInt32 (size : ℕ) : ℤ := (BitVec.ofNat 32 size).toInt

/-- The loop of `find_order`; an `int` has 32 bits. -/
def findOrderLoop : ℕ → ℤ → ℕ → ℕ
  | 0, _, order => order
  | fuel + 1, size, order =>
    if size > 4096 then findOrderLoop fuel (size >>> (1 : ℕ)) (order + 1) else order

def findOrder (size : ℤ) : ℕ := findOrderLoop 32 size 0

namespace Kmalloc

variable (k : Kmalloc)

/-- `__kmalloc`; `pages` is what the page allocator answers to a request for whole pages. -/
def kmalloc (fuel size : ℕ) (answers : List (Option ℕ)) (pages : Option ℕ) :
    Option (ℕ × Kmalloc) :=
  if size < pgSize - slobUnit then
    (k.slob.slobAlloc fuel (size + slobUnit) answers).map fun (m, s) =>
      (if m ≠ 0 then m + slobUnit else 0, { k with slob := s })
  else
    (k.slob.slobAlloc fuel sizeofBigblock answers).bind fun (bb, s) =>
      if bb = 0 then some (0, { k with slob := s })
      else
        let s := s.setWord bb (findOrder (toInt32 size))
        let s := s.setWord (bb + 8) (pages.getD 0)
        match pages with
        | some p => some (p, { slob := s.setWord (bb + 16) k.bigblocks, bigblocks := bb })
        | none => (s.slobFree fuel bb sizeofBigblock).map fun s => (0, { k with slob := s })

/-- The loop of `kfree`: the block with these pages and the one before it in the list. -/
def findBig (block : ℕ) : ℕ → Option ℕ → ℕ → Option (Option (Option ℕ × ℕ))
  | 0, _, _ => none
  | fuel + 1, last, bb =>
    if bb = 0 then some none
    else if k.slob.mem (bb + 8) = block then some (some (last, bb))
    else findBig block fuel (some bb) (k.slob.mem (bb + 16))

/-- `*last = bb->next` -/
def unlink (last : Option ℕ) (bb : ℕ) : Kmalloc :=
  match last with
  | none => { k with bigblocks := k.slob.mem (bb + 16) }
  | some l => { k with slob := k.slob.setWord (l + 16) (k.slob.mem (bb + 16)) }

/-- `slob_free((slob_t *)block - 1, 0)` -/
def freeSmall (fuel block : ℕ) : Option (Kmalloc × Option (ℕ × ℕ)) :=
  (k.slob.slobFree fuel (block - slobUnit) 0).map fun s => ({ k with slob := s }, none)

/-- `kfree`, with the pages that it gives back to the page allocator: the first one and how many. -/
def kfree (fuel block : ℕ) : Option (Kmalloc × Option (ℕ × ℕ)) :=
  if block = 0 then some (k, none)
  else if block % pgSize = 0 then
    (k.findBig block fuel none k.bigblocks).bind fun
      | some (last, bb) =>
        let k := k.unlink last bb
        let order := k.slob.mem bb
        (k.slob.slobFree fuel bb sizeofBigblock).map fun s =>
          ({ k with slob := s }, some (block, 2 ^ order))
      | none => k.freeSmall fuel block
  else k.freeSmall fuel block

end Kmalloc

/-! ## The order of a request -/

theorem findOrderLoop_spec : ∀ (fuel : ℕ) (size : ℤ) (order : ℕ), size < 4097 * 2 ^ fuel →
    ∃ n, findOrderLoop (fuel + 1) size order = order + n ∧ size < 4097 * 2 ^ n ∧
      (0 < n → 4097 * 2 ^ n ≤ 2 * size)
  | 0, size, order, h => by
    refine ⟨0, if_neg (by omega), by simpa using h, fun hn => absurd hn (lt_irrefl _)⟩
  | fuel + 1, size, order, h => by
    rw [findOrderLoop]
    split
    · have hshift : size >>> (1 : ℕ) = size / 2 := Int.shiftRight_eq_div_pow size 1
      rw [hshift]
      obtain ⟨n, hn, h1, h2⟩ := findOrderLoop_spec fuel (size / 2) (order + 1) (by
        rw [pow_succ] at h
        omega)
      refine ⟨n + 1, by rw [hn, Nat.add_right_comm, Nat.add_assoc], ?_, fun _ => ?_⟩
      · rw [pow_succ]
        omega
      · rw [pow_succ]
        obtain rfl | hpos := n.eq_zero_or_pos
        · omega
        · have := h2 hpos
          omega
    · exact ⟨0, rfl, by omega, fun hn => absurd hn (lt_irrefl _)⟩

/-- The loop of `find_order` ends, with the first order for which `size >> order <= 4096`. -/
theorem findOrder_spec {size : ℤ} (h : size < 2 ^ 31) : size < 4097 * 2 ^ findOrder size ∧
    (0 < findOrder size → 4097 * 2 ^ findOrder size ≤ 2 * size) := by
  obtain ⟨n, hn, h1, h2⟩ := findOrderLoop_spec 31 size 0 (by omega)
  have e : findOrder size = n := hn.trans (Nat.zero_add n)
  rw [e]
  exact ⟨h1, h2⟩

/-- **A large request** gets enough pages exactly if its size is below `2 ^ 31` and not a little
    above `4096 << order`, where the shifts of `find_order` lose what is too much. -/
theorem bigBytes_iff {size : ℕ} : size ≤ pgSize * 2 ^ findOrder (toInt32 size) ↔
    size < 2 ^ 31 ∧ ∀ order ≥ 1, ¬(4096 * 2 ^ order < size ∧ size < 4097 * 2 ^ order) := by
  have htop : toInt32 size < 2 ^ 31 := BitVec.toInt_lt
  obtain ⟨h1, h2⟩ := findOrder_spec htop
  have hsmall : size < 2 ^ 31 → toInt32 size = size := fun hlt => by
    rw [toInt32, BitVec.toInt_ofNat']
    exact Int.bmod_eq_of_le (by omega) (by omega)
  unfold pgSize
  generalize hn : findOrder (toInt32 size) = n at h1 h2 ⊢
  constructor
  · intro hle
    have hlt : size < 2 ^ 31 := by
      have hpow : 2 ^ n < 2 ^ 20 := by
        obtain rfl | hpos := n.eq_zero_or_pos
        · decide
        · have := h2 hpos
          have hcast : ((2 ^ n : ℕ) : ℤ) = 2 ^ n := by push_cast; rfl
          omega
      have hn19 : n ≤ 19 := Nat.lt_succ_iff.1 ((Nat.pow_lt_pow_iff_right (by decide)).1 hpow)
      have hle19 : 2 ^ n ≤ 2 ^ 19 := Nat.pow_le_pow_right (by decide) hn19
      obtain hlt | rfl : size < 2 ^ 31 ∨ size = 2 ^ 31 := by omega
      · exact hlt
      · have h0 : findOrder (toInt32 (2 ^ 31)) = 0 := by decide
        rw [← hn, h0] at hle
        omega
    refine ⟨hlt, fun j hj ⟨h3, h4⟩ => ?_⟩
    rw [hsmall hlt] at h2
    have hjn : j < n := by
      by_contra hnot
      have : 2 ^ n ≤ 2 ^ j := Nat.pow_le_pow_right (by decide) (not_lt.1 hnot)
      omega
    have hpow : 2 ^ (j + 1) ≤ 2 ^ n := Nat.pow_le_pow_right (by decide) hjn
    have h5 := h2 (by omega)
    have hcast : ((2 ^ n : ℕ) : ℤ) = 2 ^ n := by push_cast; rfl
    rw [pow_succ] at hpow
    omega
  · rintro ⟨hlt, hno⟩
    rw [hsmall hlt] at h1
    have hcast : ((2 ^ n : ℕ) : ℤ) = 2 ^ n := by push_cast; rfl
    obtain rfl | hpos := n.eq_zero_or_pos
    · omega
    · have := hno n hpos
      omega

end Ucore
