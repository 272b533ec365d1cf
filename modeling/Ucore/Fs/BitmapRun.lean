/-
  Runs of the bitmap of `kern/fs/sfs/bitmap.c`, from `bitmap_create` on.

  The abstract allocator has a set of the indices in use, and gives the least index that is not.

  * `lastWord_bit`: the bits past `nbits` in the last word are in use from the start;
  * `Shows`: the bitmap shows the indices that are not in use;
  * `bitmap_allocates`: in every state reached, each operation does to the set what it should.
-/
import Ucore.Fs.Mount
import Ucore.Lib.Machine

namespace Ucore

/-! ## The machine -/

/-- A bitmap, and the indices that have been given and not freed since. -/
structure BitmapUse where
  bitmap : Bitmap
  used : Finset ℕ

inductive BitmapOp where
  | alloc
  | free (index : ℕ)

namespace BitmapUse

def step (a : BitmapUse) : BitmapOp → Option BitmapUse
  | .alloc => (bitmapAlloc a.bitmap).map fun (r, t) => match r with
    | .ok i => ⟨t, insert i a.used⟩
    | .error _ => ⟨t, a.used⟩
  | .free i => (bitmapFree i a.bitmap).map fun (_, t) => ⟨t, a.used.erase i⟩

/-- Only what has been given is freed. -/
def Legal (a : BitmapUse) : BitmapOp → Prop
  | .alloc => True
  | .free i => i ∈ a.used

/-- A bitmap that `bitmap_create` has made. -/
def Start (nbits : ℕ) (a : BitmapUse) : Prop :=
  a.used = ∅ ∧ ∃ d s t, bitmapCreate d nbits s = some (.ok a.bitmap, t)

end BitmapUse

def bitmapMachine (nbits : ℕ) : Machine BitmapUse BitmapOp where
  Init := BitmapUse.Start nbits
  Legal := BitmapUse.Legal
  step := BitmapUse.step

variable {bm t : Bitmap} {nbits i j : ℕ} {used : Finset ℕ} {a a' : BitmapUse}

/-! ## `bitmap_create` -/

theorem foldl_xor_bit {w : BitVec 32} (hj : j < 32) : ∀ {n k : ℕ}, k + n ≤ 32 →
    ((List.range' k n).foldl (fun word offset => word ^^^ bitMask offset) w).getLsbD j =
      (w.getLsbD j ^^ decide (k ≤ j ∧ j < k + n))
  | 0, k, _ => by
    have h : ¬(k ≤ j ∧ j < k + 0) := by omega
    rw [List.range'_zero, List.foldl_nil, decide_eq_false h, Bool.xor_false]
  | n + 1, k, hk => by
    rw [List.range'_succ, List.foldl_cons, foldl_xor_bit hj (by omega), BitVec.getLsbD_xor,
      Bitmap.getLsbD_bitMask (by omega), Bool.xor_assoc]
    congr 1
    by_cases h : j = k
    · simp [h]
    · rw [decide_eq_false h, Bool.false_xor]
      congr 1
      exact propext ⟨fun h' => ⟨by omega, by omega⟩, fun h' => ⟨by omega, by omega⟩⟩

/-- The bits from `overbits` on are in use. -/
theorem lastWord_bit {overbits : ℕ} (ho : overbits < 32) (hj : j < 32) :
    (lastWord overbits).getLsbD j = decide (j < overbits) := by
  rw [lastWord, foldl_xor_bit hj (by omega), BitVec.getLsbD_allOnes, decide_eq_true hj,
    Bool.true_xor, ← decide_not]
  congr 1
  exact propext ⟨fun h => by omega, fun h h' => by omega⟩

/-- The bitmap shows the indices below `nbits` that are not in use. -/
structure Shows (nbits : ℕ) (bm : Bitmap) (used : Finset ℕ) : Prop where
  size : bm.nbits = nbits
  room : nbits ≤ 32 * bm.nwords
  below : ∀ i ∈ used, i < nbits
  bit : ∀ i, bm.bit i = decide (i < nbits ∧ i ∉ used)

/-- **`bitmap_create`** makes a bitmap of which no index is in use. -/
theorem bitmapCreate_shows {d : BlockDev} {s s' : MountState}
    (h : bitmapCreate d nbits s = some (.ok bm, s')) : Shows nbits bm ∅ := by
  rw [bitmapCreate, Code.assert_bind_eq_some] at h
  obtain ⟨_, s₁, -, h⟩ := Code.bind_eq_ok.1 h.2
  obtain ⟨_, s₂, -, h⟩ := Code.bind_eq_ok.1 h
  have hall : ∀ k, (BitVec.allOnes 32).getLsbD (k % 32) = true := fun k => by
    rw [BitVec.getLsbD_allOnes, decide_eq_true (Nat.mod_lt _ (by omega))]
  split at h
  · rename_i hw
    obtain ⟨he, -⟩ := Code.pure_eq_some.1 h
    cases he
    refine ⟨rfl, by dsimp only; omega, fun i hi => absurd hi (Finset.notMem_empty i), fun i => ?_⟩
    simp only [Bitmap.bit, Finset.notMem_empty, not_false_eq_true, and_true]
    by_cases hi : i / 32 < (nbits + 31) / 32
    · rw [if_pos hi, hall, decide_eq_true (by omega)]
    · rw [if_neg hi, decide_eq_false (by omega)]
      exact BitVec.getLsbD_zero
  · rename_i hw
    rw [Code.assert_bind_eq_some, Code.assert_bind_eq_some] at h
    obtain ⟨hix, hover, h⟩ := h
    obtain ⟨he, -⟩ := Code.pure_eq_some.1 h
    cases he
    refine ⟨rfl, by dsimp only; omega, fun i hi => absurd hi (Finset.notMem_empty i), fun i => ?_⟩
    simp only [Bitmap.bit, Finset.notMem_empty, not_false_eq_true, and_true]
    split
    · rw [lastWord_bit hover.2 (Nat.mod_lt _ (by omega))]
      congr 1
      exact propext ⟨fun h => by omega, fun h => by omega⟩
    · split
      · rw [hall, decide_eq_true (by omega)]
      · rw [decide_eq_false (by omega)]
        exact BitVec.getLsbD_zero

/-! ## The operations -/

/-- The index that is given is the least one that is free. -/
theorem bitmapAlloc_least (h : bitmapAlloc bm = some (.ok i, t)) (hj : j < i) :
    bm.bit j = false := by
  simp only [bitmapAlloc, Code.get_bind_eq_some] at h
  cases hix : (List.range bm.nwords).find? fun ix => bm.map ix != 0 with
  | none =>
    simp only [hix] at h
    cases (Code.throw_eq_some.1 h).1
  | some ix =>
    simp only [hix] at h
    cases ho : firstOffset (bm.map ix) with
    | none => exact absurd h (by simp [ho])
    | some offset =>
      simp only [ho, Code.modify_bind_eq_some, Code.pure_eq_some, Except.ok.injEq] at h
      obtain ⟨-, -, hwords⟩ := List.find?_range_eq_some.1 hix
      obtain ⟨-, hoff, hbits⟩ := List.find?_range_eq_some.1 ho
      have hlt : offset < 32 := List.mem_range.1 hoff
      by_cases hw : j / 32 = ix
      · -- a lower bit of the same word
        have hbit := hbits (j % 32) (by omega)
        rw [Bitmap.bit, hw]
        by_contra hb
        refine absurd ((Bitmap.and_bitMask_ne_zero (Nat.mod_lt j (by omega))).2
          (by simpa using hb)) ?_
        simpa using hbit
      · have hword := hwords (j / 32) (by omega)
        have h0 : bm.map (j / 32) = 0 := by simpa using hword
        rw [Bitmap.bit, h0]
        exact BitVec.getLsbD_zero

namespace Shows

theorem setBit_false (h : Shows nbits bm used) (hi : i < nbits) (hu : i ∉ used) :
    Shows nbits (bm.setBit i false) (insert i used) where
  size := h.size
  room := h.room
  below j hj := by
    obtain rfl | hj := Finset.mem_insert.1 hj
    · exact hi
    · exact h.below j hj
  bit j := by
    have hb : bm.bit i = !false := by rw [h.bit, decide_eq_true ⟨hi, hu⟩]; rfl
    rw [Bitmap.bit_setBit false hb, h.bit]
    by_cases hj : j = i
    · simp [hj]
    · simp [hj]

theorem setBit_true (h : Shows nbits bm used) (hu : i ∈ used) :
    Shows nbits (bm.setBit i true) (used.erase i) where
  size := h.size
  room := h.room
  below j hj := h.below j (Finset.mem_of_mem_erase hj)
  bit j := by
    have hb : bm.bit i = !true := by rw [h.bit, decide_eq_false fun hn => hn.2 hu]; rfl
    have hi := h.below i hu
    rw [Bitmap.bit_setBit true hb, h.bit]
    by_cases hj : j = i
    · simp [hj, hi]
    · simp [hj]

/-- **`bitmap_test`** tells whether an index is free. -/
theorem test (h : Shows nbits bm used) (hj : j < nbits) :
    bitmapTest j bm = some (.ok (decide (j ∉ used)), bm) := by
  refine Bitmap.bitmapTest_eq_some.2 ⟨by rw [h.size]; exact hj, ?_, rfl⟩
  rw [h.bit]
  simp [hj]

/-- **`bitmap_alloc`** takes the least index that is free, and fails only if there is none. -/
theorem alloc (h : Shows nbits bm used) : ∃ r t, bitmapAlloc bm = some (r, t) ∧
    ((∃ i, r = .ok i ∧ IsLeast {j | j < nbits ∧ j ∉ used} i ∧ Shows nbits t (insert i used)) ∨
      (r = .error .noMem ∧ t = bm ∧ ∀ j < nbits, j ∈ used)) := by
  obtain ⟨r, t, hr⟩ : Code.Runs bitmapAlloc bm := Bitmap.bitmapAlloc_runs
  refine ⟨r, t, hr, ?_⟩
  obtain ⟨i, rfl, hb, -, rfl⟩ | ⟨rfl, rfl, hall⟩ := Bitmap.bitmapAlloc_eq_some hr
  · rw [h.bit] at hb
    obtain ⟨hi, hu⟩ := of_decide_eq_true hb
    refine .inl ⟨i, rfl, ⟨⟨hi, hu⟩, fun j hj => ?_⟩, h.setBit_false hi hu⟩
    by_contra hlt
    have hfree := bitmapAlloc_least hr (not_le.1 hlt)
    rw [h.bit] at hfree
    exact of_decide_eq_false hfree hj
  · refine .inr ⟨rfl, rfl, fun j hj => ?_⟩
    have hfree := hall j (hj.trans_le h.room)
    rw [h.bit] at hfree
    by_contra hu
    exact of_decide_eq_false hfree ⟨hj, hu⟩

/-- **`bitmap_free`** of an index in use. -/
theorem free (h : Shows nbits bm used) (hu : i ∈ used) :
    ∃ t, bitmapFree i bm = some (.ok (), t) ∧ Shows nbits t (used.erase i) := by
  refine ⟨_, Bitmap.bitmapFree_eq_some.2 ⟨?_, ?_, rfl, rfl⟩, h.setBit_true hu⟩
  · rw [h.size]
    exact h.below i hu
  · rw [h.bit]
    exact decide_eq_false fun hn => hn.2 hu

end Shows

/-! ## Runs -/

theorem bitmapMachine_keeps :
    (bitmapMachine nbits).Keeps fun a => Shows nbits a.bitmap a.used := by
  rintro a (_ | i) h hl
  · obtain ⟨r, t, hr, ⟨i, rfl, -, ht⟩ | ⟨rfl, rfl, -⟩⟩ := h.alloc
    · refine ⟨⟨t, insert i a.used⟩, ?_, ht⟩
      change (bitmapAlloc a.bitmap).map _ = _
      rw [hr]
      rfl
    · refine ⟨a, ?_, h⟩
      change (bitmapAlloc a.bitmap).map _ = _
      rw [hr]
      rfl
  · obtain ⟨t, ht, hr⟩ := h.free hl
    refine ⟨⟨t, a.used.erase i⟩, ?_, hr⟩
    change (bitmapFree i a.bitmap).map _ = _
    rw [ht]
    rfl

theorem shows_reach (h : (bitmapMachine nbits).Reach a) : Shows nbits a.bitmap a.used := by
  refine h.invariant (fun a h => ?_) bitmapMachine_keeps
  obtain ⟨hu, d, s, t, ht⟩ := h
  rw [hu]
  exact bitmapCreate_shows ht

/-- **The bitmap allocator.** After any operations on a bitmap of `nbits` bits, `bitmap_alloc`
returns the least index below `nbits` that is free and marks only that one, or `-E_NO_MEM`, changing
nothing, if none is free; `bitmap_free` makes free the index it is given only; `bitmap_test` tells
which indices are free. -/
theorem bitmap_allocates (h : (bitmapMachine nbits).Reach a) :
    (∀ i ∈ a.used, i < nbits) ∧
    (∃ r t, bitmapAlloc a.bitmap = some (r, t) ∧
      ((∃ i, r = .ok i ∧ IsLeast {j | j < nbits ∧ j ∉ a.used} i ∧
          ∀ j < nbits, bitmapTest j t = some (.ok (decide (j ≠ i ∧ j ∉ a.used)), t)) ∨
        (r = .error .noMem ∧ t = a.bitmap ∧ ∀ j < nbits, j ∈ a.used))) ∧
    (∀ i ∈ a.used, ∃ t, bitmapFree i a.bitmap = some (.ok (), t) ∧
      ∀ j < nbits, bitmapTest j t = some (.ok (decide (j = i ∨ j ∉ a.used)), t)) ∧
    ∀ j < nbits, bitmapTest j a.bitmap = some (.ok (decide (j ∉ a.used)), a.bitmap) := by
  have hrep := shows_reach h
  refine ⟨hrep.below, ?_, fun i hi => ?_, fun j hj => hrep.test hj⟩
  · obtain ⟨r, t, hr, ⟨i, rfl, hleast, ht⟩ | hnone⟩ := hrep.alloc
    · refine ⟨_, t, hr, .inl ⟨i, rfl, hleast, fun j hj => ?_⟩⟩
      rw [ht.test hj]
      simp [Finset.mem_insert, not_or]
    · exact ⟨r, t, hr, .inr hnone⟩
  · obtain ⟨t, ht, hrep'⟩ := hrep.free hi
    refine ⟨t, ht, fun j hj => ?_⟩
    rw [hrep'.test hj]
    simp [Finset.mem_erase, or_iff_not_imp_left]

/-- A bitmap of 33 bits, after an allocation. -/
theorem bitmap_allocates_33 : ∃ a t, (bitmapMachine 33).Reach a ∧ a.used = {0} ∧
    bitmapAlloc a.bitmap = some (.ok 1, t) := by
  obtain ⟨bm, s', hbm⟩ : ∃ bm s', bitmapCreate ⟨0, 4096, fun _ _ => 0, ⟨fun _ _ => none⟩⟩ 33
      ⟨0, []⟩ = some (.ok bm, s') := ⟨_, _, rfl⟩
  have h0 : (bitmapMachine 33).Reach ⟨bm, ∅⟩ := .init ⟨rfl, _, _, s', hbm⟩
  obtain ⟨-, ⟨r, t, hr, hout⟩, -⟩ := bitmap_allocates h0
  obtain ⟨i, rfl, hi, -⟩ | ⟨-, -, hall⟩ := hout
  · have hi0 : i = 0 := Nat.le_zero.1 (hi.2 ⟨by decide, Finset.notMem_empty 0⟩)
    subst hi0
    have h1 : (bitmapMachine 33).Reach ⟨t, {0}⟩ := by
      refine h0.step (i := .alloc) trivial ?_
      change (bitmapAlloc bm).map _ = _
      rw [hr]
      rfl
    obtain ⟨-, ⟨r, t', hr', hout⟩, -⟩ := bitmap_allocates h1
    obtain ⟨i, rfl, hi, -⟩ | ⟨-, -, hall⟩ := hout
    · have hle : i ≤ 1 := hi.2 ⟨by decide, by simp⟩
      have hne : i ≠ 0 := fun h => hi.1.2 (by simp [h])
      obtain rfl : i = 1 := by omega
      exact ⟨_, t', h1, rfl, hr'⟩
    · exact absurd (hall 1 (by decide)) (by simp)
  · exact absurd (hall 0 (by decide)) (Finset.notMem_empty 0)

end Ucore
