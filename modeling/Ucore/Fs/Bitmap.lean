/-
  `kern/fs/sfs/bitmap.c`: the bitmap of the free blocks.  A set bit is a free block.

  * `bitmapAlloc_eq_some`: it clears the lowest set bit, and fails only if there is none;
  * `bitmapFree_eq_some`: it sets a clear bit.
-/
import Ucore.Lib.Code
import Ucore.Libs.Error
import Mathlib.Algebra.Order.Ring.Nat
import Mathlib.Data.Finset.Filter
import Mathlib.Data.Finset.Range
import Mathlib.Data.Finset.Insert
import Mathlib.Data.Finset.Card
import Mathlib.Logic.Function.Basic

namespace Ucore

/-- `struct bitmap`; the words are `uint32_t`. -/
structure Bitmap where
  nbits : ℕ
  nwords : ℕ
  map : ℕ → BitVec 32

/-- `1 << offset`. -/
def bitMask (offset : ℕ) : BitVec 32 := 1#32 <<< offset

/-- The first `offset` at which a word has a set bit. -/
def firstOffset (word : BitVec 32) : Option ℕ :=
  (List.range 32).find? fun offset => word &&& bitMask offset != 0

def bitmapAlloc : Code Bitmap Errno ℕ := do
  let bitmap ← Code.get
  match (List.range bitmap.nwords).find? fun ix => bitmap.map ix != 0 with
  | none => Code.throw .noMem
  | some ix =>
    match firstOffset (bitmap.map ix) with
    | none => Code.panic
    | some offset => do
      Code.modify fun bitmap =>
        { bitmap with map := Function.update bitmap.map ix (bitmap.map ix ^^^ bitMask offset) }
      pure (ix * 32 + offset)

/-- The assertion of `bitmap_translate`. -/
def bitmapTranslate (index : ℕ) : Code Bitmap Errno (ℕ × ℕ) := do
  let bitmap ← Code.get
  Code.assert (index < bitmap.nbits)
  pure (index / 32, index % 32)

def bitmapTest (index : ℕ) : Code Bitmap Errno Bool := do
  let (ix, offset) ← bitmapTranslate index
  let bitmap ← Code.get
  pure (bitmap.map ix &&& bitMask offset != 0)

def bitmapFree (index : ℕ) : Code Bitmap Errno Unit := do
  let (ix, offset) ← bitmapTranslate index
  let bitmap ← Code.get
  Code.assert (bitmap.map ix &&& bitMask offset = 0)
  Code.modify fun bitmap =>
    { bitmap with map := Function.update bitmap.map ix (bitmap.map ix ||| bitMask offset) }

namespace Bitmap

/-! ## Bits -/

/-- Bit `i` is set. -/
def bit (bm : Bitmap) (i : ℕ) : Bool := (bm.map (i / 32)).getLsbD (i % 32)

/-- The bitmap with bit `i` set to `v`. -/
def setBit (bm : Bitmap) (i : ℕ) (v : Bool) : Bitmap :=
  { bm with map := Function.update bm.map (i / 32) (if v
      then bm.map (i / 32) ||| bitMask (i % 32) else bm.map (i / 32) ^^^ bitMask (i % 32)) }

variable {bm t : Bitmap} {i j : ℕ} {w : BitVec 32}

@[simp] theorem setBit_nbits (v : Bool) : (bm.setBit i v).nbits = bm.nbits := rfl

@[simp] theorem setBit_nwords (v : Bool) : (bm.setBit i v).nwords = bm.nwords := rfl

theorem getLsbD_bitMask (hi : i < 32) : (bitMask i).getLsbD j = decide (j = i) := by
  rw [bitMask, BitVec.getLsbD_shiftLeft, BitVec.getLsbD_one]
  grind

theorem and_bitMask_ne_zero (hi : i < 32) : w &&& bitMask i ≠ 0 ↔ w.getLsbD i = true := by
  constructor
  · intro h
    by_contra hw
    refine h (BitVec.eq_of_getLsbD_eq fun j hj => ?_)
    rw [BitVec.getLsbD_and, getLsbD_bitMask hi]
    by_cases hji : j = i
    · subst hji
      simpa using hw
    · simp [hji]
  · intro h h0
    have := congrArg (BitVec.getLsbD · i) h0
    simp [getLsbD_bitMask hi, h] at this

theorem test_bit : bm.map (i / 32) &&& bitMask (i % 32) ≠ 0 ↔ bm.bit i = true :=
  and_bitMask_ne_zero (Nat.mod_lt _ (by omega))

/-- Writing a bit writes that bit only. -/
theorem bit_setBit (v : Bool) (hv : bm.bit i = !v) :
    (bm.setBit i v).bit j = if j = i then v else bm.bit j := by
  have hm : i % 32 < 32 := Nat.mod_lt _ (by omega)
  by_cases hw : j / 32 = i / 32
  · have hji : j = i ↔ j % 32 = i % 32 := by omega
    simp only [bit, setBit, hw, Function.update_self] at hv ⊢
    cases v
    · by_cases hb : j % 32 = i % 32
      · simp [BitVec.getLsbD_xor, getLsbD_bitMask hm, hji, hb, hv]
      · simp [BitVec.getLsbD_xor, getLsbD_bitMask hm, hji, hb]
    · by_cases hb : j % 32 = i % 32
      · simp [BitVec.getLsbD_or, getLsbD_bitMask hm, hji, hb]
      · simp [BitVec.getLsbD_or, getLsbD_bitMask hm, hji, hb]
  · have hji : j ≠ i := fun h => hw (h ▸ rfl)
    simp [bit, setBit, Function.update_of_ne hw, hji]

theorem firstOffset_eq_some {k : ℕ} (h : firstOffset w = some k) : k < 32 ∧ w.getLsbD k = true := by
  obtain ⟨h1, h2, -⟩ := List.find?_range_eq_some.1 h
  have hk : k < 32 := List.mem_range.1 h2
  exact ⟨hk, (and_bitMask_ne_zero hk).1 (by simpa using h1)⟩

theorem firstOffset_ne_none (h : w ≠ 0) : firstOffset w ≠ none := by
  intro hn
  refine h (BitVec.eq_of_getLsbD_eq fun j hj => ?_)
  have := List.find?_eq_none.1 hn j (List.mem_range.2 hj)
  have hb : ¬w.getLsbD j = true := fun hb => this (by simpa using (and_bitMask_ne_zero hj).2 hb)
  simpa using hb

/-! ## The operations -/

theorem bitmapAlloc_eq_some {r : Except Errno ℕ} (h : bitmapAlloc bm = some (r, t)) :
    (∃ b, r = .ok b ∧ bm.bit b = true ∧ b < 32 * bm.nwords ∧ t = bm.setBit b false) ∨
      (r = .error .noMem ∧ t = bm ∧ ∀ b < 32 * bm.nwords, bm.bit b = false) := by
  simp only [bitmapAlloc, Code.get_bind_eq_some] at h
  cases hix : (List.range bm.nwords).find? fun ix => bm.map ix != 0 with
  | none =>
    simp only [hix] at h
    obtain ⟨rfl, rfl⟩ := Code.throw_eq_some.1 h
    refine .inr ⟨rfl, rfl, fun b hb => ?_⟩
    have := List.find?_eq_none.1 hix (b / 32) (List.mem_range.2 (by omega))
    have h0 : t.map (b / 32) = 0 := by simpa using this
    simp [bit, h0]
  | some ix =>
    simp only [hix] at h
    have hlt : ix < bm.nwords := List.mem_range.1 (List.find?_range_eq_some.1 hix).2.1
    cases ho : firstOffset (bm.map ix) with
    | none => exact absurd h (by simp [ho])
    | some offset =>
      obtain ⟨hk, hb⟩ := firstOffset_eq_some ho
      simp only [ho, Code.modify_bind_eq_some, Code.pure_eq_some] at h
      obtain ⟨rfl, rfl⟩ := h
      have hq : (ix * 32 + offset) / 32 = ix := by omega
      have hr : (ix * 32 + offset) % 32 = offset := by omega
      refine .inl ⟨_, rfl, by rw [bit, hq, hr]; exact hb, by omega, ?_⟩
      simp [setBit, hq, hr]

theorem bitmapAlloc_runs : Code.Runs bitmapAlloc bm := by
  rw [bitmapAlloc, Code.runs_get_bind]
  split
  · exact Code.Runs.throw _
  · rename_i ix hix
    have h0 : bm.map ix ≠ 0 := by simpa using (List.find?_range_eq_some.1 hix).1
    split
    · rename_i ho
      exact absurd ho (firstOffset_ne_none h0)
    · exact Code.Runs.pure _

theorem bitmapTest_eq_some {r : Except Errno Bool} :
    bitmapTest i bm = some (r, t) ↔ i < bm.nbits ∧ r = .ok (bm.bit i) ∧ t = bm := by
  have hb : (bm.map (i / 32) &&& bitMask (i % 32) != 0) = bm.bit i := by
    rw [Bool.eq_iff_iff, bne_iff_ne]
    exact test_bit
  simp only [bitmapTest, bitmapTranslate, bind_assoc, pure_bind, Code.get_bind_eq_some,
    Code.assert_bind_eq_some, Code.pure_eq_some, hb]

theorem bitmapFree_eq_some {r : Except Errno Unit} :
    bitmapFree i bm = some (r, t) ↔
      i < bm.nbits ∧ bm.bit i = false ∧ r = .ok () ∧ t = bm.setBit i true := by
  have hb : bm.map (i / 32) &&& bitMask (i % 32) = 0 ↔ bm.bit i = false := by
    rw [← Bool.not_eq_true, ← test_bit, not_not]
  simp only [bitmapFree, bitmapTranslate, bind_assoc, pure_bind, Code.get_bind_eq_some,
    Code.assert_bind_eq_some, Code.modify_eq_some, hb]
  rfl

/-! ## The free bits -/

/-- The free bits, as `sfs_do_mount` counts them. -/
def freeBits (bm : Bitmap) : Finset ℕ := (Finset.range bm.nbits).filter fun i => bm.bit i = true

theorem card_freeBits_alloc (hi : i < bm.nbits) (hb : bm.bit i = true) :
    (bm.setBit i false).freeBits.card + 1 = bm.freeBits.card := by
  have hf : bm.freeBits = insert i (bm.setBit i false).freeBits := by
    ext j
    simp only [freeBits, Finset.mem_insert, Finset.mem_filter, Finset.mem_range, setBit_nbits,
      bit_setBit false hb]
    grind
  rw [hf, Finset.card_insert_of_notMem]
  simp [freeBits, bit_setBit false hb]

theorem card_freeBits_free (hi : i < bm.nbits) (hb : bm.bit i = false) :
    (bm.setBit i true).freeBits.card = bm.freeBits.card + 1 := by
  have hf : (bm.setBit i true).freeBits = insert i bm.freeBits := by
    ext j
    simp only [freeBits, Finset.mem_insert, Finset.mem_filter, Finset.mem_range, setBit_nbits,
      bit_setBit true hb]
    grind
  rw [hf, Finset.card_insert_of_notMem]
  simp [freeBits, hb]

end Bitmap

end Ucore
